import Workhorse.Tier.Lemmas.Rebase

/-!
# Every statement keeps placement and tier together
-/

namespace Workhorse

variable {c : Placement} {t u : TierTx} {id : TaskId} {queue : String} {σ σ' : TierStore} {conn : Nat}

namespace TierTx

variable {fast : List String}

theorem Sound.begin (hagrees : c.Agrees) (hknown : c.Known) : TierTx.Sound c ⟨none, .none, [], [], none⟩ := by
  have hsame : c.withWrites .none = c := by
    simp only [Placement.withWrites, TierWrites.none, Option.getD_none, List.nil_append]
    rfl
  refine ⟨rfl, ?_, ?_, ?_, ?_, ?_, ?_, ?_, ?_⟩
  · rw [hsame]
    exact hagrees
  · rw [hsame]
    exact hknown
  all_goals simp [TierWrites.none, TierWrites.creates, Table.contains]

theorem Sound.lock (h : t.Sound c) {shared exclusive : List String}
    (hshared : ∀ q ∈ t.shared, q ∈ shared) (hexclusive : ∀ q ∈ t.exclusive, q ∈ exclusive) :
    ({ t with shared, exclusive } : TierTx).Sound c := by
  have hholds {q : String} (hq : t.holds q = true) : ({ t with shared, exclusive } : TierTx).holds q = true := by
    simp only [holds, Bool.or_eq_true, List.contains_iff_mem] at hq ⊢
    exact hq.imp (hshared q) (hexclusive q)
  exact ⟨h.readCommitted, h.agrees, h.known, fun q tier hq => hexclusive q (h.switched q tier hq),
    fun id q hid => hholds (h.placed id q hid), fun id q hid => hholds (h.fastPlaced id q hid),
    fun kind q ns hns => hholds (h.synced kind q ns hns),
    fun queues fast hcall q hq => ⟨hholds (h.call queues fast hcall q hq).1, (h.call queues fast hcall q hq).2⟩,
    h.fresh⟩

theorem Sound.read (h : t.Sound c) {queues : List String} (hheld : queues.all t.holds = true) :
    ({ t with call := some (queues, queues.filter fun q => (c.withWrites t.writes).tiers q = .fast) } :
      TierTx).Sound c := by
  refine { h with call := fun _ _ hcall q hq => ?_ }
  cases hcall
  exact ⟨List.all_eq_true.mp hheld q hq, by simp [hq]⟩

theorem Sound.reads (h : t.Sound c) (hfast : TierStore.fastQueues t queue = some fast) :
    t.holds queue = true ∧ (queue ∈ fast ↔ (c.withWrites t.writes).tiers queue = .fast) := by
  obtain ⟨⟨queues, fast'⟩, hcall, hif⟩ := Option.bind_eq_some_iff.mp hfast
  split at hif
  · rename_i hq
    cases hif
    exact h.call queues _ hcall queue hq
  · cases hif

theorem Sound.not_isFast (h : t.Sound c) (hfresh : c.tasks.contains id = false)
    (hnew : t.writes.creates id = false) : (c.withWrites t.writes).isFast id = false := by
  by_contra hfast
  have hknown := h.known.fast id (Bool.not_eq_false _ ▸ hfast)
  rw [Placement.contains_tasks_withWrites, hnew, hfresh] at hknown
  cases hknown

theorem Sound.createFast (h : t.Sound c) (hheld : t.holds queue = true)
    (htier : (c.withWrites t.writes).tiers queue = .fast) (hfresh : c.tasks.contains id = false)
    (hnew : t.writes.creates id = false) :
    ({ t with writes := { t.writes with fastRuntime := t.writes.fastRuntime.put id queue } } : TierTx).Sound c := by
  have hisFast (k : TaskId) : (c.withWrites { t.writes with
      fastRuntime := t.writes.fastRuntime.put id queue }).isFast k =
      (decide (k = id) || (c.withWrites t.writes).isFast k) := by
    simp [Placement.isFast_withWrites, Bool.or_assoc]
  have htasks (k : TaskId) : (c.withWrites { t.writes with
      fastRuntime := t.writes.fastRuntime.put id queue }).tasks.contains k =
      (decide (k = id) || (c.withWrites t.writes).tasks.contains k) := by
    simp [Placement.contains_tasks_withWrites, TierWrites.creates, Bool.or_left_comm, Bool.or_assoc]
  -- No edge leads to a task that was not there.
  have hedge {k : TaskId} (hknown : (c.withWrites t.writes).tasks.contains k = true)
      (hslow : (c.withWrites t.writes).isFast k = false) : (c.withWrites { t.writes with
      fastRuntime := t.writes.fastRuntime.put id queue }).isFast k = false := by
    rw [hisFast, hslow, Bool.or_false, decide_eq_false_iff_not]
    rintro rfl
    rw [Placement.contains_tasks_withWrites, hnew, hfresh] at hknown
    cases hknown
  refine ⟨h.readCommitted, ?_, ⟨fun e he => ?_, fun e he => ?_, fun k hk => ?_⟩, h.switched, h.placed,
    fun k q hk => ?_, h.synced, h.call, fun k hk => ?_⟩
  · refine .of_tiers h.agrees.full (fun k q hk => ?_) h.agrees.policies (fun e he => ?_) fun e he => ?_
    · simp only [Placement.withWrites, Table.get?_overlay, Table.get?_put] at hk
      split at hk
      · cases hk
        exact htier
      · exact h.agrees.fast k q (by simpa [Placement.withWrites] using hk)
    · exact hedge (h.known.prerequisites e he) (h.agrees.prerequisites e he)
    · exact hedge (h.known.children e he) (h.agrees.children e he)
  · rw [htasks, h.known.prerequisites e he, Bool.or_true]
  · rw [htasks, h.known.children e he, Bool.or_true]
  · rw [hisFast, Bool.or_eq_true] at hk
    rw [htasks, Bool.or_eq_true]
    exact hk.imp_right (h.known.fast k)
  · rcases Table.get?_put_cases hk with ⟨-, rfl⟩ | ⟨-, hk⟩
    · exact hheld
    · exact h.fastPlaced k q hk
  · simp only [TierWrites.creates, Table.contains_put, Bool.or_eq_true, decide_eq_true_eq] at hk
    rcases hk with hk | rfl | hk
    · exact h.fresh k (by simp [TierWrites.creates, hk])
    · exact hfresh
    · exact h.fresh k (by simp [TierWrites.creates, hk])

theorem Sound.createFull (h : t.Sound c) (hheld : t.holds queue = true)
    (htier : (c.withWrites t.writes).tiers queue = .full) (hfresh : c.tasks.contains id = false)
    (hnew : t.writes.creates id = false) {dependencies children : List (TaskId × TaskId)}
    (hedges : ∀ e ∈ dependencies ++ children, e.2 = id ∨
      (c.withWrites t.writes).tasks.contains e.2 = true ∧ (c.withWrites t.writes).isFast e.2 = false) :
    ({ t with writes := { t.writes with
      runtime := t.writes.runtime.put id queue
      dependencies := dependencies ++ t.writes.dependencies
      children := children ++ t.writes.children } } : TierTx).Sound c := by
  have htasks (k : TaskId) : (c.withWrites { t.writes with
      runtime := t.writes.runtime.put id queue
      dependencies := dependencies ++ t.writes.dependencies
      children := children ++ t.writes.children }).tasks.contains k =
      (decide (k = id) || (c.withWrites t.writes).tasks.contains k) := by
    simp [Placement.contains_tasks_withWrites, TierWrites.creates, Bool.or_assoc]
  have hslow {e : TaskId × TaskId} (he : e ∈ dependencies ++ children) :
      (c.withWrites t.writes).isFast e.2 = false := by
    rcases hedges e he with heq | hknown
    · rw [heq]
      exact h.not_isFast hfresh hnew
    · exact hknown.2
  have hknown {e : TaskId × TaskId} (he : e ∈ dependencies ++ children) :
      (decide (e.2 = id) || (c.withWrites t.writes).tasks.contains e.2) = true := by
    rcases hedges e he with heq | hknown
    · simp [heq]
    · simp [hknown.1]
  have hcases {new old older : List (TaskId × TaskId)} {e : TaskId × TaskId} (he : e ∈ new ++ old ++ older) :
      e ∈ new ∨ e ∈ old ++ older := by
    rwa [List.append_assoc, List.mem_append] at he
  refine ⟨h.readCommitted, ?_, ⟨fun e he => ?_, fun e he => ?_, fun k hk => ?_⟩, h.switched,
    fun k q hk => ?_, h.fastPlaced, h.synced, h.call, fun k hk => ?_⟩
  · refine .of_tiers (fun k q hk => ?_) h.agrees.fast h.agrees.policies (fun e he => ?_) fun e he => ?_
    · simp only [Placement.withWrites, Table.get?_overlay, Table.get?_put] at hk
      split at hk
      · cases hk
        exact htier
      · exact h.agrees.full k q (by simpa [Placement.withWrites] using hk)
    · rcases hcases he with he | he
      · exact hslow (List.mem_append_left _ he)
      · exact h.agrees.prerequisites e he
    · rcases hcases he with he | he
      · exact hslow (List.mem_append_right _ he)
      · exact h.agrees.children e he
  · rw [htasks]
    rcases hcases he with he | he
    · exact hknown (List.mem_append_left _ he)
    · rw [h.known.prerequisites e he, Bool.or_true]
  · rw [htasks]
    rcases hcases he with he | he
    · exact hknown (List.mem_append_right _ he)
    · rw [h.known.children e he, Bool.or_true]
  · rw [htasks, h.known.fast k hk, Bool.or_true]
  · rcases Table.get?_put_cases hk with ⟨-, rfl⟩ | ⟨-, hk⟩
    · exact hheld
    · exact h.placed k q hk
  · simp only [TierWrites.creates, Table.contains_put, Bool.or_eq_true, decide_eq_true_eq] at hk
    rcases hk with (rfl | hk) | hk
    · exact hfresh
    · exact h.fresh k (by simp [TierWrites.creates, hk])
    · exact h.fresh k (by simp [TierWrites.creates, hk])

theorem Sound.setPolicies (h : t.Sound c) (p : PolicyKind → String → Prop) [∀ k q, Decidable (p k q)]
    {owner : Option String}
    (howner : ∀ ns, owner = some ns → ∀ k q, p k q → t.holds q = true ∧ (c.withWrites t.writes).tiers q ≠ .fast) :
    ({ t with writes := { t.writes with
      policies := fun k q => if p k q then some owner else t.writes.policies k q } } : TierTx).Sound c := by
  refine { h with agrees := { h.agrees with policies := fun k q hfast => ?_ }, known := { h.known with },
                  synced := fun k q ns hk => ?_ }
  · by_cases hq : p k q
    · cases owner with
      | none => simp [Placement.withWrites, hq]
      | some ns => exact absurd hfast (howner ns rfl k q hq).2
    · simpa [Placement.withWrites, hq] using h.agrees.policies k q hfast
  · simp only at hk
    split at hk
    · rename_i hq
      exact (howner ns (Option.some.inj hk) k q hq).1
    · exact h.synced k q ns hk

theorem Sound.switch (h : t.Sound c) {tier : Tier} (hlock : queue ∈ t.exclusive)
    (hlive : (c.withWrites t.writes).hasLive queue = false)
    (hpolicies : tier = .fast → ∀ kind, (c.withWrites t.writes).policies kind queue = none) :
    ({ t with
      call := none
      writes := { t.writes with
        tiers := fun q => if q = queue then some tier else t.writes.tiers q } } : TierTx).Sound c := by
  simp only [Placement.hasLive, Bool.or_eq_false_iff, Table.any_eq_false_iff, decide_eq_false_iff_not] at hlive
  have hother {q : String} (hq : q ≠ queue) : (c.withWrites { t.writes with
      tiers := fun q => if q = queue then some tier else t.writes.tiers q }).tiers q =
      (c.withWrites t.writes).tiers q := by
    simp [Placement.withWrites, hq]
  refine ⟨h.readCommitted, ?_, ⟨h.known.prerequisites, h.known.children, h.known.fast⟩, fun q tier' hq => ?_, h.placed,
    h.fastPlaced, h.synced, ?_, h.fresh⟩
  · refine .of_tiers (fun id q hid => ?_) (fun id q hid => ?_) (fun kind q hfast => ?_)
      h.agrees.prerequisites h.agrees.children
    · rw [hother fun hq => hlive.1 id q hid hq]
      exact h.agrees.full id q hid
    · rw [hother fun hq => hlive.2 id q hid hq]
      exact h.agrees.fast id q hid
    · by_cases hq : q = queue
      · subst hq
        exact hpolicies (by simpa [Placement.withWrites] using hfast) kind
      · rw [hother hq] at hfast
        exact h.agrees.policies kind q hfast
  · simp only at hq
    split at hq
    · rename_i heq
      exact heq ▸ hlock
    · exact h.switched q tier' hq
  · intro _ _ hcall
    cases hcall

end TierTx

section Close

theorem Placement.isFast_close {k : TaskId} : (c.close id).isFast k = c.isFast k := by
  simp only [Placement.isFast, Placement.close, Table.contains_erase]
  by_cases hk : k = id
  · cases hid : c.fastRuntime.get? id <;> simp [hk, Table.contains, hid]
  · cases c.fastRuntime.get? id <;> simp [hk]

theorem Table.get?_erase_overlay {rows written : Table TaskId String} {k : TaskId}
    (h : ((rows.erase id).overlay written).get? k = some queue) :
    (rows.overlay written).get? k = some queue := by
  simp only [Table.get?_overlay, Option.or_eq_some_iff] at h ⊢
  exact h.imp_right fun hrow => ⟨hrow.1, (Table.get?_erase_eq_some hrow.2).2⟩

theorem TierTx.Sound.close (h : t.Sound c) : t.Sound (c.close id) := by
  have hisFast (k : TaskId) : ((c.close id).withWrites t.writes).isFast k = (c.withWrites t.writes).isFast k := by
    rw [Placement.isFast_withWrites, Placement.isFast_withWrites, Placement.isFast_close]
  refine ⟨h.readCommitted, ?_, ⟨h.known.prerequisites, h.known.children, fun k hk => ?_⟩, h.switched,
    h.placed, h.fastPlaced, h.synced, h.call, h.fresh⟩
  · refine .of_tiers (fun k q hk => h.agrees.full k q (Table.get?_erase_overlay hk))
      (fun k q hk => h.agrees.fast k q (Table.get?_erase_overlay hk)) h.agrees.policies (fun e he => ?_)
      fun e he => ?_
    · rw [hisFast]
      exact h.agrees.prerequisites e he
    · rw [hisFast]
      exact h.agrees.children e he
  · rw [hisFast] at hk
    exact h.known.fast k hk

end Close

structure TierStore.Inv (σ : TierStore) : Prop where
  agrees : σ.committed.Agrees
  known : σ.committed.Known
  sound : ∀ conn t, σ.txs.get? conn = some t → t.Sound σ.committed
  separate : ∀ conn conn' t u, conn ≠ conn' → σ.txs.get? conn = some t → σ.txs.get? conn' = some u → t.Separate u

namespace TierStore.Inv

theorem set (h : σ.Inv) (ht : t.Sound σ.committed)
    (hsep : ∀ conn' u, conn' ≠ conn → σ.txs.get? conn' = some u → t.Separate u ∧ u.Separate t) :
    (σ.set conn t).Inv := by
  refine ⟨h.agrees, h.known, fun conn' u hu => ?_, Table.pairwise_put h.separate hsep⟩
  rcases Table.get?_put_cases hu with ⟨-, rfl⟩ | ⟨-, hu⟩
  · exact ht
  · exact h.sound conn' u hu

theorem write (h : σ.Inv) (hconn : σ.txs.get? conn = some t) (hu : u.Sound σ.committed)
    (hlocks : u.shared = t.shared ∧ u.exclusive = t.exclusive)
    (hids : ∀ id, u.writes.creates id = true → t.writes.creates id = true ∨ σ.isFresh id = true) :
    (σ.set conn u).Inv := by
  refine h.set hu fun conn' t' hne ht' => ?_
  have hsep := h.separate conn conn' t t' (Ne.symm hne) hconn ht'
  have hsep' := h.separate conn' conn t' t hne ht' hconn
  have hholds (q : String) : u.holds q = t.holds q := by simp [TierTx.holds, hlocks.1, hlocks.2]
  have hfresh {id : TaskId} (hid : σ.isFresh id = true) : t'.writes.creates id = false := by
    simp only [isFresh, Bool.and_eq_true, Bool.not_eq_true', Table.any_eq_false_iff] at hid
    exact hid.2 conn' t' ht'
  refine ⟨⟨fun q hq => hsep.locks q (hlocks.2 ▸ hq), fun id hid => ?_⟩,
    ⟨fun q hq => hholds q ▸ hsep'.locks q hq, fun id hid => ?_⟩⟩
  · exact (hids id hid).elim (hsep.ids id) hfresh
  · by_contra hcreates
    rcases hids id (Bool.not_eq_false _ ▸ hcreates) with hown | hnew
    · rw [hsep'.ids id hid] at hown
      cases hown
    · rw [hfresh hnew] at hid
      cases hid

theorem commit (h : σ.Inv) (hconn : σ.txs.get? conn = some t) :
    TierStore.Inv ⟨σ.committed.withWrites t.writes, σ.txs.erase conn⟩ := by
  have ht := h.sound conn t hconn
  refine ⟨ht.agrees, ht.known, fun conn' u hu => ?_, Table.pairwise_erase h.separate⟩
  obtain ⟨hne, hu⟩ := Table.get?_erase_eq_some hu
  exact .rebase (h.separate conn conn' t u (Ne.symm hne) hconn hu) (h.separate conn' conn u t hne hu hconn) ht
    (h.sound conn' u hu)

theorem rollback (h : σ.Inv) : TierStore.Inv { σ with txs := σ.txs.erase conn } :=
  ⟨h.agrees, h.known, fun conn' u hu => h.sound conn' u (Table.get?_erase_eq_some hu).2,
    Table.pairwise_erase h.separate⟩

theorem begin (h : σ.Inv) (conn : Nat) : (σ.set conn ⟨none, .none, [], [], none⟩).Inv := by
  refine h.set (.begin h.agrees h.known) fun conn' u _ hu => ⟨⟨?_, ?_⟩, ⟨?_, ?_⟩⟩
  all_goals simp [TierTx.holds, TierWrites.none, TierWrites.creates, Table.contains]

theorem lock (h : σ.Inv) (hconn : σ.txs.get? conn = some t) (shared exclusive : List String)
    (hshared : ∀ q ∈ t.shared, q ∈ shared) (hexclusive : ∀ q ∈ t.exclusive, q ∈ exclusive)
    (hnew : ∀ conn' u, conn' ≠ conn → σ.txs.get? conn' = some u →
      (∀ q ∈ exclusive, q ∈ t.exclusive ∨ u.holds q = false) ∧
      ∀ q ∈ u.exclusive, q ∈ shared ∨ q ∈ exclusive → t.holds q = true) :
    (σ.set conn { t with shared, exclusive }).Inv := by
  refine h.set ((h.sound conn t hconn).lock hshared hexclusive) fun conn' u hne hu => ?_
  have hsep := h.separate conn conn' t u (Ne.symm hne) hconn hu
  have hsep' := h.separate conn' conn u t hne hu hconn
  obtain ⟨hnew₁, hnew₂⟩ := hnew conn' u hne hu
  refine ⟨⟨fun q hq => (hnew₁ q hq).elim (hsep.locks q) id, hsep.ids⟩, ⟨fun q hq => ?_, hsep'.ids⟩⟩
  by_contra hheld
  have hmem : q ∈ shared ∨ q ∈ exclusive := by
    simpa [TierTx.holds, or_iff_not_imp_left] using hheld
  have := hnew₂ q hq hmem
  rw [hsep'.locks q hq] at this
  cases this

theorem close (h : σ.Inv) : TierStore.Inv { σ with committed := σ.committed.close id } := by
  refine ⟨?_, ⟨h.known.prerequisites, h.known.children, fun k hk => ?_⟩,
    fun conn t ht => (h.sound conn t ht).close, h.separate⟩
  · refine .of_tiers (fun k q hk => h.agrees.full k q (Table.get?_erase_eq_some hk).2)
      (fun k q hk => h.agrees.fast k q (Table.get?_erase_eq_some hk).2) h.agrees.policies
      (fun e he => ?_) fun e he => ?_
    · rw [Placement.isFast_close]
      exact h.agrees.prerequisites e he
    · rw [Placement.isFast_close]
      exact h.agrees.children e he
  · rw [Placement.isFast_close] at hk
    exact h.known.fast k hk

theorem view_eq (h : σ.Inv) (hconn : σ.txs.get? conn = some t) : σ.view t = σ.committed.withWrites t.writes := by
  rw [TierStore.view, (h.sound conn t hconn).readCommitted]
  rfl

theorem fresh_of_isFresh (hconn : σ.txs.get? conn = some t) (hid : σ.isFresh id = true) :
    σ.committed.tasks.contains id = false ∧ t.writes.creates id = false := by
  simp only [isFresh, Bool.and_eq_true, Bool.not_eq_true', Table.any_eq_false_iff] at hid
  exact ⟨hid.1, hid.2 conn t hconn⟩

theorem createFast (h : σ.Inv) (hconn : σ.txs.get? conn = some t)
    (hreads : fastQueues t queue = some fast) (hq : queue ∈ fast) (hid : σ.isFresh id = true) :
    (σ.create conn t id queue true [] []).Inv := by
  have hsound := h.sound conn t hconn
  obtain ⟨hheld, htier⟩ := hsound.reads hreads
  obtain ⟨hfresh, hnew⟩ := fresh_of_isFresh hconn hid
  refine h.write hconn (hsound.createFast hheld (htier.mp hq) hfresh hnew) ⟨rfl, rfl⟩ fun k hk => ?_
  simp only [TierWrites.creates, if_true, Table.contains_put, Bool.or_eq_true, decide_eq_true_eq] at hk ⊢
  rcases hk with hk | rfl | hk
  · exact .inl (.inl hk)
  · exact .inr hid
  · exact .inl (.inr hk)

theorem createFull (h : σ.Inv) (hconn : σ.txs.get? conn = some t)
    (hreads : fastQueues t queue = some fast) (hq : queue ∉ fast) (hid : σ.isFresh id = true)
    {dependencies children : List (TaskId × TaskId)} (hedges : ∀ e ∈ dependencies ++ children, e.2 = id ∨
      (σ.view t).tasks.contains e.2 = true ∧ (σ.view t).isFast e.2 = false) :
    (σ.create conn t id queue false dependencies children).Inv := by
  have hsound := h.sound conn t hconn
  obtain ⟨hheld, htier⟩ := hsound.reads hreads
  obtain ⟨hfresh, hnew⟩ := fresh_of_isFresh hconn hid
  have hfull : (σ.committed.withWrites t.writes).tiers queue = .full := by
    cases hcase : (σ.committed.withWrites t.writes).tiers queue with
    | full => rfl
    | fast => exact absurd (htier.mpr hcase) hq
  rw [h.view_eq hconn] at hedges
  refine h.write hconn (hsound.createFull hheld hfull hfresh hnew hedges) ⟨rfl, rfl⟩ fun k hk => ?_
  simp only [TierWrites.creates, Bool.false_eq_true, if_false, Table.contains_put, Bool.or_eq_true,
    decide_eq_true_eq] at hk ⊢
  rcases hk with (rfl | hk) | hk
  · exact .inr hid
  · exact .inl (.inl hk)
  · exact .inl (.inr hk)

/-- Every statement at read committed keeps the invariant. -/
theorem step (h : σ.Inv) {e : TierEvent} (he : e.readCommitted = true) (hs : σ.step e = some σ') : σ'.Inv := by
  cases e with
  | begin conn repeatableRead =>
    have hrc : repeatableRead = false := by simpa [TierEvent.readCommitted] using he
    subst hrc
    simp only [TierStore.step] at hs
    split at hs
    · cases hs
    · cases hs
      exact h.begin conn
  | lockShared conn q =>
    obtain ⟨t, hconn, hs⟩ := Option.bind_eq_some_iff.mp hs
    split at hs
    · cases hs
    · rename_i hfree
      cases hs
      refine h.lock hconn (q :: t.shared) t.exclusive (fun p hp => List.mem_cons_of_mem _ hp)
        (fun _ hp => hp) fun conn' u hne hu => ⟨fun p hp => .inl hp, fun p hp hmem => ?_⟩
      rcases hmem with hmem | hmem
      · rcases List.mem_cons.mp hmem with rfl | hmem
        · refine absurd ((Table.any_iff).mpr ⟨conn', u, hu, ?_⟩) hfree
          simp [hne, hp]
        · simp [TierTx.holds, hmem]
      · simp [TierTx.holds, hmem]
  | readTiers conn queues =>
    obtain ⟨t, hconn, hs⟩ := Option.bind_eq_some_iff.mp hs
    split at hs
    · rename_i hheld
      cases hs
      rw [h.view_eq hconn]
      exact h.write hconn ((h.sound conn t hconn).read hheld) ⟨rfl, rfl⟩ fun _ => .inl
    · cases hs
  | enqueue conn id q prerequisites =>
    obtain ⟨t, hconn, hs⟩ := Option.bind_eq_some_iff.mp hs
    obtain ⟨fast, hreads, hs⟩ := Option.bind_eq_some_iff.mp hs
    split at hs
    · cases hs
    · rename_i hid
      have hid : σ.isFresh id = true := by simpa using hid
      split at hs
      · rename_i hq
        split at hs
        · cases hs
          exact h.createFast hconn hreads hq hid
        · cases hs
      · rename_i hq
        split at hs
        · rename_i hallows
          cases hs
          refine h.createFull hconn hreads hq hid fun e he => .inr ?_
          obtain ⟨p, hp, rfl⟩ : ∃ p ∈ prerequisites, (id, p) = e := by simpa using he
          simpa using List.all_eq_true.mp hallows p hp
        · cases hs
  | redrive conn id source =>
    obtain ⟨t, hconn, hs⟩ := Option.bind_eq_some_iff.mp hs
    obtain ⟨q, -, hs⟩ := Option.bind_eq_some_iff.mp hs
    obtain ⟨fast, hreads, hs⟩ := Option.bind_eq_some_iff.mp hs
    split at hs
    · cases hs
    · rename_i hid
      have hid : σ.isFresh id = true := by simpa using hid
      cases hs
      by_cases hq : q ∈ fast
      · rw [decide_eq_true hq]
        exact h.createFast hconn hreads hq hid
      · rw [decide_eq_false hq]
        exact h.createFull hconn hreads hq hid fun e he => by simp at he
  | startChild conn id q parent =>
    obtain ⟨t, hconn, hs⟩ := Option.bind_eq_some_iff.mp hs
    obtain ⟨fast, hreads, hs⟩ := Option.bind_eq_some_iff.mp hs
    split at hs
    · cases hs
    · rename_i hno
      cases hs
      simp only [Bool.or_eq_true, Bool.not_eq_true', decide_eq_true_eq, not_or, Bool.not_eq_false] at hno
      refine h.createFull hconn hreads hno.2 hno.1 fun e he => .inl ?_
      simp only [List.cons_append, List.nil_append, List.mem_cons, List.not_mem_nil, or_false, or_self] at he
      rw [he]
  | syncPolicy conn kind q ns =>
    obtain ⟨t, hconn, hs⟩ := Option.bind_eq_some_iff.mp hs
    obtain ⟨fast, hreads, hs⟩ := Option.bind_eq_some_iff.mp hs
    split at hs
    · cases hs
    · rename_i hq
      split at hs
      · cases hs
      · split at hs
        · cases hs
          have hsound := h.sound conn t hconn
          obtain ⟨hheld, htier⟩ := hsound.reads hreads
          refine h.write hconn (hsound.setPolicies (fun k q' => k = kind ∧ q' = q) fun _ _ k q' hq' => ?_)
            ⟨rfl, rfl⟩ fun _ => .inl
          rw [hq'.2]
          exact ⟨hheld, fun hfast => hq (htier.mpr hfast)⟩
        · cases hs
  | prune conn kind ns seen =>
    obtain ⟨t, hconn, hs⟩ := Option.bind_eq_some_iff.mp hs
    cases hs
    refine h.write hconn ((h.sound conn t hconn).setPolicies _ fun _ hnew => ?_) ⟨rfl, rfl⟩ fun _ => .inl
    cases hnew
  | lockExclusive conn q =>
    obtain ⟨t, hconn, hs⟩ := Option.bind_eq_some_iff.mp hs
    split at hs
    · cases hs
    · rename_i hfree
      cases hs
      have hfree' {conn' : Nat} {u : TierTx} (hne : conn' ≠ conn) (hu : σ.txs.get? conn' = some u) :
          u.holds q = false := by
        by_contra hheld
        refine hfree (Table.any_iff.mpr ⟨conn', u, hu, ?_⟩)
        simpa [hne] using hheld
      refine h.lock hconn t.shared (q :: t.exclusive) (fun _ hp => hp)
        (fun p hp => List.mem_cons_of_mem _ hp) fun conn' u hne hu => ⟨fun p hp => ?_, fun p hp hmem => ?_⟩
      · rcases List.mem_cons.mp hp with rfl | hp
        · exact .inr (hfree' hne hu)
        · exact .inl hp
      · rcases hmem with hmem | hmem
        · simp [TierTx.holds, hmem]
        · rcases List.mem_cons.mp hmem with rfl | hmem
          · have hno := hfree' hne hu
            simp [TierTx.holds, hp] at hno
          · simp [TierTx.holds, hmem]
  | setTier conn q tier =>
    obtain ⟨t, hconn, hs⟩ := Option.bind_eq_some_iff.mp hs
    have hsound := h.sound conn t hconn
    rw [h.view_eq hconn] at hs
    split at hs
    · cases hs
    · rename_i hlock
      have hlock : q ∈ t.exclusive := by simpa using hlock
      split at hs
      · cases hs
        refine h.write hconn ?_ ⟨rfl, rfl⟩ fun _ => .inl
        exact { hsound with call := fun _ _ hcall => by cases hcall }
      · split at hs
        · cases hs
        · rename_i hlive
          split at hs
          · cases hs
          · rename_i hpolicies
            split at hs
            · cases hs
              refine h.write hconn (hsound.switch hlock (Bool.not_eq_true _ ▸ hlive) fun htier kind => ?_)
                ⟨rfl, rfl⟩ fun _ => .inl
              simp only [htier, true_and, not_or, Bool.not_eq_true, Option.isSome_eq_false_iff,
                Option.isNone_iff_eq_none] at hpolicies
              cases kind with
              | concurrency => exact hpolicies.1
              | rateLimit => exact hpolicies.2
            · cases hs
  | commit conn =>
    obtain ⟨t, hconn, rfl⟩ := Option.map_eq_some_iff.mp hs
    exact h.commit hconn
  | rollback conn =>
    cases hs
    exact h.rollback
  | close id =>
    cases hs
    exact h.close

theorem run (h : σ.Inv) {events : List TierEvent} (he : ∀ e ∈ events, e.readCommitted = true)
    (hs : σ.run events = some σ') : σ'.Inv := by
  induction events generalizing σ with
  | nil =>
    cases hs
    exact h
  | cons e events ih =>
    obtain ⟨σ₁, h₁, hs⟩ := Option.bind_eq_some_iff.mp hs
    exact ih (h.step (he e (by simp)) h₁) (fun e' he' => he e' (by simp [he'])) hs

end TierStore.Inv

end Workhorse
