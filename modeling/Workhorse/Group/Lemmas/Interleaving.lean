import Workhorse.Group.Lemmas.Shards

/-!
# Adds, commits and runs

A commit of one transaction keeps what holds of the others, and so the counters stay exact along a run.
-/

namespace Workhorse

variable {shardCount : GroupId → Nat}

namespace Frame

variable {db : GroupDb} {f f' u : Frame} {emptied : List ShardKey} {key : ShardKey} {g : GroupId} {ids : List TaskId}
  {id : TaskId}

/-! ## A new member -/

section Grow

variable (key) {position : Nat} {x : Shard} {y : Group}
  (hmembers : f'.members = f.members.put id ⟨key.1, position, none⟩)
  (hshards : f'.shards = Function.update f.shards key (some x))
  (hgroups : f'.groups = Function.update f.groups key.1 (some y))

include hmembers hshards hgroups

theorem within_grow : f.Within f' := by
  refine ⟨fun i hi => ?_, fun k hk => ?_, fun g' hg' => ?_⟩
  · rw [hmembers] at hi
    by_cases hid : i = id
    · simp [hid] at hi
    · simpa [hid] using hi
  · rw [hshards, Function.update_apply] at hk
    split at hk
    · cases hk
    · exact hk
  · rw [hgroups, Function.update_apply] at hg'
    split at hg'
    · cases hg'
    · exact hg'

theorem Apart.grow (h : f.Apart u) (hid : u.members.get? id = none) (hkey : u.shards key = none)
    (hg : u.groups key.1 = none) : f'.Apart u := by
  refine ⟨fun i => ?_, fun k => ?_, fun g' => ?_⟩
  · rw [hmembers]
    by_cases hi : i = id
    · exact .inr (hi ▸ hid)
    · simpa [hi] using h.members i
  · rw [hshards, Function.update_apply]
    split
    · next hk => exact .inr (hk ▸ hkey)
    · exact h.shards k
  · rw [hgroups, Function.update_apply]
    split
    · next hgg => exact .inr (hgg ▸ hg)
    · exact h.groups g'

theorem Sound.grow (hdb : db.Exact shardCount) (h : f.Sound shardCount db [])
    (hfresh : (db.view f).members.get? id = none) (hlt : key.2 < shardCount key.1)
    (hkey : Member.key shardCount ⟨key.1, position, none⟩ = key) (hlisted : f'.listed = f.listed)
    (hx : x = Function.update ((db.view f).shards key) .total ((db.view f).shards key .total + 1))
    (hy : y.pendingShards = ((db.view f).groups key.1).pendingShards +
      if ((db.view f).shards key).pending = 0 then 1 else 0) : f'.Sound shardCount db [] := by
  obtain ⟨hf, hd⟩ : f.members.get? id = none ∧ db.members.get? id = none := by
    simpa [GroupDb.view] using hfresh
  have hwithin := within_grow key hmembers hshards hgroups
  have hview (k : ShardKey) := view_shards_update db hshards k
  have hlist (k : ShardKey) (column : Column) : f'.listedIn shardCount k column = f.listedIn shardCount k column := by
    unfold Frame.listedIn
    rw [hmembers, hlisted, Table.count_put hf]
    simp
  have htally (k : ShardKey) (column : Column) : tally shardCount (db.view f').members k column =
      tally shardCount (db.view f).members k column + if key = k && column = .total then 1 else 0 := by
    have hput := tally_view_put shardCount db f id ⟨key.1, position, none⟩ k column
    rw [hfresh, hkey] at hput
    change tally shardCount (db.members.overlay f'.members) k column = _
    rw [hmembers]
    simpa [Member.inColumn] using hput
  -- The new member is pending in its shard.
  have hgrown : x.pending = ((db.view f).shards key).pending + 1 := by
    have hle := h.outcomes_le hdb key
    subst hx
    simp only [Shard.pending, Function.update_self, ne_eq, reduceCtorEq, not_false_eq_true, Function.update_of_ne]
    omega
  refine ⟨fun i r hr => ?_, fun i r hr hk => ?_, fun i hi => ?_, fun k v hv column => ?_,
    fun g' group hg' => ?_, fun g' hg' s v hv => ?_, fun _ hk => absurd hk List.not_mem_nil, .nil⟩
  · rw [hmembers] at hr
    by_cases hid : i = id
    · have hr' : ⟨key.1, position, none⟩ = r := by simpa [hid] using hr
      refine .inr ⟨hid ▸ hd, ?_⟩
      rw [← hr', hkey, hshards]
      simp
    · exact (h.rows i r (by simpa [hid] using hr)).imp_right fun hnew =>
        ⟨hnew.1, hwithin.isSome_shards hnew.2⟩
  · rw [hmembers] at hr
    rw [hlisted]
    by_cases hid : i = id
    · have hr' : ⟨key.1, position, none⟩ = r := by simpa [hid] using hr
      rw [← hr', hkey, hshards] at hk
      simp at hk
    · exact h.unapplied i r (by simpa [hid] using hr) (hwithin.shards _ hk)
  · rw [hlisted] at hi
    obtain ⟨r, hr, hsome⟩ := h.listed i hi
    have hid : i ≠ id := by
      rintro rfl
      cases hf.symm.trans hr
    exact ⟨r, by simpa [hmembers, hid] using hr, hsome⟩
  · rw [hlist, htally]
    rw [hshards, Function.update_apply] at hv
    split at hv
    · next hk =>
      subst hk
      cases hv
      have hbefore := h.view_exact hdb k column
      by_cases hcol : column = .total
      · subst hcol
        simp only [hx, Function.update_self, decide_true, Bool.and_self, if_true]
        omega
      · simp only [hx, ne_eq, hcol, not_false_eq_true, Function.update_of_ne, decide_false,
          Bool.and_false, Bool.false_eq_true, if_false]
        omega
    · next hk =>
      have hbefore := h.counts k v hv column
      simpa [Ne.symm hk] using hbefore
  · rw [hgroups, Function.update_apply] at hg'
    split at hg'
    · next hgg =>
      cases hg'
      have hbefore := h.pendingShards_view hdb key.1
      simp only [List.countP_nil, Nat.add_zero] at hbefore ⊢
      rw [hgg, hy, hbefore]
      by_cases hzero : ((db.view f).shards key).pending = 0
      · have hinsert : (db.view f').pendingShards shardCount key.1 =
            insert key.2 ((db.view f).pendingShards shardCount key.1) := by
          ext s
          rw [Finset.mem_insert, mem_pendingShards, mem_pendingShards, hview]
          by_cases hs : s = key.2
          · simp [hs, hgrown, hlt]
          · have hne : (key.1, s) ≠ key := fun heq => hs (congrArg Prod.snd heq)
            simp [hs, hne]
        have hnotin : key.2 ∉ (db.view f).pendingShards shardCount key.1 := by
          intro hin
          have hpos : 0 < ((db.view f).shards key).pending := (mem_pendingShards.mp hin).2
          omega
        rw [hinsert, Finset.card_insert_of_notMem hnotin, if_pos hzero]
      · rw [if_neg hzero, Nat.add_zero]
        congr 1
        refine pendingShards_congr fun s _ => ?_
        rw [hview]
        by_cases hs : (key.1, s) = key
        · rw [if_pos hs, hgrown, hs]
          omega
        · rw [if_neg hs]
    · next hgg =>
      rw [h.held g' group hg']
      congr 2
      refine pendingShards_congr fun s _ => ?_
      rw [hview, if_neg fun heq => hgg (congrArg Prod.fst heq)]
  · rw [hgroups, Function.update_apply] at hg'
    split at hg'
    · cases hg'
    · next hgg =>
      rw [hshards, Function.update_apply, if_neg fun heq => hgg (congrArg Prod.fst heq)] at hv
      exact h.free g' hg' s v hv

end Grow

theorem Sound.addMember (hn : ∀ g, 0 < shardCount g) (hdb : db.Exact shardCount)
    (h : f.Sound shardCount db []) (g : GroupId) (hfresh : (db.view f).members.get? id = none) :
    (f.addMember shardCount db g id).Sound shardCount db [] :=
  h.grow (g, f.sum shardCount db g .total % shardCount g) rfl rfl rfl hdb hfresh
    (Nat.mod_lt _ (hn g)) rfl rfl rfl rfl

theorem within_addMember (db : GroupDb) (f : Frame) (g : GroupId) (id : TaskId) :
    f.Within (f.addMember shardCount db g id) :=
  within_grow (g, f.sum shardCount db g .total % shardCount g) rfl rfl rfl

theorem Apart.addMember (hn : ∀ g, 0 < shardCount g) (h : f.Apart u) (hid : u.members.get? id = none)
    (hg : u.groups g = none) (hus : ∀ s < shardCount g, u.shards (g, s) = none) :
    (f.addMember shardCount db g id).Apart u :=
  h.grow (g, f.sum shardCount db g .total % shardCount g) rfl rfl rfl hid
    (hus _ (Nat.mod_lt _ (hn g))) hg

theorem addMembers_induct {P : Frame → Prop} (hnodup : ids.Nodup)
    (hfresh : ∀ id ∈ ids, (db.view f).members.get? id = none)
    (hstep : ∀ f' id, id ∈ ids → (db.view f').members.get? id = none → P f' →
      P (f'.addMember shardCount db g id)) (hf : P f) :
    P (ids.foldl (fun f id => f.addMember shardCount db g id) f) := by
  induction ids generalizing f with
  | nil => exact hf
  | cons id ids ih =>
    obtain ⟨hnot, hnodup⟩ := List.nodup_cons.mp hnodup
    refine ih hnodup (fun i hi => ?_) (fun f' i hi => hstep f' i (List.mem_cons_of_mem _ hi))
      (hstep f id List.mem_cons_self (hfresh id List.mem_cons_self) hf)
    have hne : i ≠ id := by
      rintro rfl
      exact hnot hi
    simpa [GroupDb.view, Frame.addMember, hne] using hfresh i (List.mem_cons_of_mem _ hi)

/-! ## Commits -/

theorem Sound.rebase (h : f.Sound shardCount db emptied) (hu : u.Sound shardCount db [])
    (hlisted : u.listed = []) (hapart : f.Apart u) : f.Sound shardCount (db.view u) emptied := by
  refine ⟨fun i m hm => ?_, h.unapplied, h.listed, fun k v hv column => ?_, fun g group hg => ?_,
    fun g hg s v hv => ?_, h.drained, h.nodup⟩
  · have hui : u.members.get? i = none := (hapart.members i).resolve_left (by simp [hm])
    have hsame : (db.view u).members.get? i = db.members.get? i := by simp [GroupDb.view, hui]
    rw [hsame]
    exact h.rows i m hm
  · have huk : u.shards k = none := (hapart.shards k).resolve_left (by simp [hv])
    rw [h.counts k v hv column]
    refine tally_congr fun i m hk => ?_
    simp only [GroupDb.view, Table.get?_overlay]
    cases f.members.get? i with
    | some r => simp
    | none =>
      cases hui : u.members.get? i with
      | none => simp
      | some r =>
        -- The committed row is in a shard that its transaction has locked.
        have hne : r.key shardCount ≠ k := by
          intro heq
          have hin := hu.unapplied i r hui (heq ▸ huk)
          simp [hlisted] at hin
        simp only [Option.none_or, Option.some_or, Option.some.injEq]
        constructor
        · intro hd
          rcases hu.rows i r hui with ⟨m₀, hm₀, -, hk₀, -⟩ | ⟨hnone, -⟩
          · cases hd.symm.trans hm₀
            exact absurd (hk₀.symm.trans hk) hne
          · cases hnone.symm.trans hd
        · rintro rfl
          exact absurd hk hne
  · have hug : u.groups g = none := (hapart.groups g).resolve_left (by simp [hg])
    rw [h.held g group hg]
    congr 2
    refine pendingShards_congr fun s _ => ?_
    simp only [GroupDb.view]
    cases f.shards (g, s) with
    | some v => simp
    | none =>
      cases hus : u.shards (g, s) with
      | none => simp
      | some v =>
        obtain ⟨hbefore, hafter | hin⟩ := hu.free g hug s v hus
        · simpa using iff_of_true hbefore hafter
        · cases hin
  · have hus : u.shards (g, s) = none := (hapart.shards _).resolve_left (by simp [hv])
    have hsame : (db.view u).shards (g, s) = db.shards (g, s) := by simp [GroupDb.view, hus]
    rw [hsame]
    exact h.free g hg s v hv

theorem Sound.commit (hdb : db.Exact shardCount) (h : f.Sound shardCount db []) (hlisted : f.listed = []) :
    (db.view f).Exact shardCount := by
  refine ⟨fun k column => ?_, fun g => by simpa using h.pendingShards_view hdb g⟩
  have hzero : f.listedIn shardCount k column = 0 := Table.count_eq_zero_iff.mpr fun i m _ => by simp [hlisted]
  have hview := h.view_exact hdb k column
  omega

end Frame

/-! ## Runs -/

/-- What holds of an open transaction: of its rows and of those it would go back to. -/
structure GroupTx.Sound (shardCount : GroupId → Nat) (db : GroupDb) (t : GroupTx) : Prop where
  frame : t.frame.Sound shardCount db t.emptied
  saved : ∀ f ∈ t.savepoints, f.Sound shardCount db []
  nested : (t.frame :: t.savepoints).Pairwise fun f f' => f'.Within f

theorem GroupTx.Sound.advance {db : GroupDb} {t : GroupTx} (h : t.Sound shardCount db) {f : Frame}
    {emptied : List ShardKey} (hf : f.Sound shardCount db emptied) (hw : t.frame.Within f) :
    GroupTx.Sound shardCount db { t with frame := f, emptied := emptied } := by
  obtain ⟨hhead, htail⟩ := List.pairwise_cons.mp h.nested
  exact ⟨hf, h.saved, List.pairwise_cons.mpr ⟨fun f' hf' => (hhead f' hf').trans hw, htail⟩⟩

namespace GroupStore

variable {σ σ' : GroupStore} {conn : Nat} {t : GroupTx}

theorem get?_erase_txs {k : Nat} {u : GroupTx} (hu : (σ.txs.erase conn).get? k = some u) :
    k ≠ conn ∧ σ.txs.get? k = some u := by
  rw [Table.get?_erase] at hu
  split at hu
  · cases hu
  · next hk => exact ⟨hk, hu⟩

/-- The committed counters are exact, and the open transactions hold rows of their own. -/
structure Inv (shardCount : GroupId → Nat) (σ : GroupStore) : Prop where
  exact : σ.db.Exact shardCount
  sound : ∀ conn t, σ.txs.get? conn = some t → t.Sound shardCount σ.db
  apart : ∀ conn conn' t t', σ.txs.get? conn = some t → σ.txs.get? conn' = some t' → conn ≠ conn' →
    t.frame.Apart t'.frame

theorem inv_fresh (shardCount : GroupId → Nat) : fresh.Inv shardCount where
  exact := by
    refine ⟨fun _ _ => rfl, fun g => ?_⟩
    simp [fresh, GroupDb.empty, Group.created, GroupDb.pendingShards, Shard.pending]
  sound _ _ h := nomatch h
  apart _ _ _ _ h := nomatch h

theorem Inv.set (h : σ.Inv shardCount) (ht : t.Sound shardCount σ.db)
    (hapart : ∀ conn' u, σ.txs.get? conn' = some u → conn' ≠ conn → t.frame.Apart u.frame) :
    (σ.set conn t).Inv shardCount := by
  have hget (k : Nat) : (σ.set conn t).txs.get? k = if k = conn then some t else σ.txs.get? k := by
    by_cases hk : k = conn <;> simp [GroupStore.set, hk]
  refine ⟨h.exact, fun k u hu => ?_, fun k k' u u' hu hu' hne => ?_⟩
  · rw [hget] at hu
    split at hu
    · cases hu
      exact ht
    · exact h.sound k u hu
  · rw [hget] at hu hu'
    split at hu <;> split at hu'
    · next hk hk' => exact absurd (hk.trans hk'.symm) hne
    · next hk' =>
      cases hu
      exact hapart k' u' hu' hk'
    · next hk _ =>
      cases hu'
      exact (hapart k u hu hk).symm
    · exact h.apart k k' u u' hu hu' hne

theorem others_eq_false {p : Frame → Bool} (h : (!σ.others conn p) = true) {k : Nat} {u : GroupTx}
    (hu : σ.txs.get? k = some u) (hk : k ≠ conn) : p u.frame = false := by
  have hfalse : σ.others conn p = false := by simpa using h
  have hnone := Table.any_eq_false_iff.mp hfalse k u hu
  simpa [hk] using hnone

theorem groupFree_spec {g : GroupId} (h : σ.groupFree shardCount conn g = true) {k : Nat} {u : GroupTx}
    (hu : σ.txs.get? k = some u) (hk : k ≠ conn) :
    u.frame.groups g = none ∧ ∀ s < shardCount g, u.frame.shards (g, s) = none := by
  have hnone := others_eq_false h hu hk
  simpa using hnone

theorem areNew_spec (h : σ.areNew ids = true) : ids.Nodup ∧ ∀ id ∈ ids,
    σ.db.members.get? id = none ∧ ∀ k u, σ.txs.get? k = some u → u.frame.members.get? id = none := by
  simp only [areNew, Bool.and_eq_true, decide_eq_true_eq, List.all_eq_true, Option.isNone_iff_eq_none,
    Bool.not_eq_true', Table.any_eq_false_iff] at h
  refine ⟨h.1, fun id hid => ⟨(h.2 id hid).1, fun k u hu => ?_⟩⟩
  simpa using (h.2 id hid).2 k u hu

section Step

variable (h : σ.Inv shardCount) (ht : σ.txs.get? conn = some t)

include h ht

theorem Inv.advance {f : Frame} {emptied : List ShardKey} (hf : f.Sound shardCount σ.db emptied)
    (hw : t.frame.Within f)
    (hapart : ∀ k u, σ.txs.get? k = some u → k ≠ conn → t.frame.Apart u.frame → f.Apart u.frame) :
    (σ.set conn { t with frame := f, emptied := emptied }).Inv shardCount :=
  h.set ((h.sound conn t ht).advance hf hw) fun k u hu hk =>
    hapart k u hu hk (h.apart conn k t u ht hu (Ne.symm hk))

theorem Inv.commit (hemptied : t.emptied = []) (hlisted : t.frame.listed = []) :
    Inv shardCount { db := σ.db.view t.frame, txs := σ.txs.erase conn } := by
  have hframe : t.frame.Sound shardCount σ.db [] := hemptied ▸ (h.sound conn t ht).frame
  refine ⟨hframe.commit h.exact hlisted, fun k u hu => ?_, fun k k' u u' hu hu' => ?_⟩
  · obtain ⟨hk, hu⟩ := get?_erase_txs hu
    have hsound := h.sound k u hu
    have hapart := h.apart k conn u t hu ht hk
    refine ⟨hsound.frame.rebase hframe hlisted hapart, fun f hf => ?_, hsound.nested⟩
    have hw : f.Within u.frame := (List.pairwise_cons.mp hsound.nested).1 f hf
    exact (hsound.saved f hf).rebase hframe hlisted (hapart.of_within hw)
  · exact h.apart k k' u u' (get?_erase_txs hu).2 (get?_erase_txs hu').2

theorem Inv.add (hn : ∀ g, 0 < shardCount g) {g : GroupId} (hemptied : t.emptied = [])
    (hfree : σ.groupFree shardCount conn g = true) (hnew : σ.areNew ids = true) : (σ.set conn { t with
      frame := ids.foldl (fun f id => f.addMember shardCount σ.db g id)
        (t.frame.lockGroup shardCount σ.db g) }).Inv shardCount := by
  obtain ⟨hnodup, hids⟩ := areNew_spec hnew
  have hframe : t.frame.Sound shardCount σ.db [] := hemptied ▸ (h.sound conn t ht).frame
  have hfresh (id : TaskId) (hid : id ∈ ids) :
      (σ.db.view (t.frame.lockGroup shardCount σ.db g)).members.get? id = none := by
    rw [Frame.view_lockGroup]
    simp [GroupDb.view, (hids id hid).1, (hids id hid).2 conn t ht]
  refine h.advance ht ?_ ?_ fun k u hu hk hapart => ?_
  · rw [hemptied]
    exact Frame.addMembers_induct (P := fun f => f.Sound shardCount σ.db []) hnodup hfresh
      (fun f id _ hid hf => hf.addMember hn h.exact g hid) (hframe.lockGroup h.exact g)
  · exact Frame.addMembers_induct (P := fun f => t.frame.Within f) hnodup hfresh
      (fun f id _ _ hf => hf.trans (Frame.within_addMember σ.db f g id))
      (Frame.within_lockGroup σ.db t.frame g)
  · obtain ⟨hug, hus⟩ := groupFree_spec hfree hu hk
    exact Frame.addMembers_induct (P := fun f => f.Apart u.frame) hnodup hfresh
      (fun f id hid _ hf => hf.addMember hn ((hids id hid).2 k u hu) hug hus) (hapart.lockGroup hug hus)

end Step

/-- Every statement keeps the invariant. -/
theorem Inv.step (hn : ∀ g, 0 < shardCount g) (h : σ.Inv shardCount) {e : GroupEvent}
    (hstep : σ.step shardCount e = some σ') : σ'.Inv shardCount := by
  cases e with
  | begin conn =>
    simp only [GroupStore.step, Option.ite_none_left_eq_some, Option.some.injEq] at hstep
    obtain ⟨-, rfl⟩ := hstep
    refine h.set ⟨Frame.sound_blank _ _, fun _ hf => absurd hf List.not_mem_nil, List.pairwise_singleton _ _⟩ ?_
    exact fun _ _ _ _ => ⟨fun _ => .inl rfl, fun _ => .inl rfl, fun _ => .inl rfl⟩
  | record conn id outcome =>
    simp only [GroupStore.step, Option.bind_eq_some_iff, Option.ite_none_right_eq_some, Option.some.injEq] at hstep
    obtain ⟨t, ht, m, hm, ⟨hemptied, hnone, hfree⟩, rfl⟩ := hstep
    refine h.advance ht ((h.sound conn t ht).frame.record hm hnone outcome)
      (Frame.within_record _ _ _ _) fun k u hu hk hapart => ?_
    exact hapart.record (by simpa using others_eq_false hfree hu hk) m outcome
  | applyShard conn key =>
    simp only [GroupStore.step, Option.bind_eq_some_iff, Option.ite_none_right_eq_some, Option.some.injEq] at hstep
    obtain ⟨t, ht, ⟨hlisted, hfree⟩, rfl⟩ := hstep
    simp only [List.any_eq_true, Option.any_eq_true, decide_eq_true_eq] at hlisted
    obtain ⟨id, hid, m, hm, hkey⟩ := hlisted
    refine h.advance ht ((h.sound conn t ht).frame.applyShard hn h.exact hid hm hkey)
      (Frame.within_applyShard _ _ _ _) fun k u hu hk hapart => ?_
    exact hapart.applyShard (by simpa using others_eq_false hfree hu hk)
  | applyGroup conn g =>
    simp only [GroupStore.step, Option.bind_eq_some_iff, Option.ite_none_right_eq_some, Option.some.injEq] at hstep
    obtain ⟨t, ht, ⟨-, hfree⟩, rfl⟩ := hstep
    refine h.advance ht ((h.sound conn t ht).frame.applyGroup h.exact g)
      (Frame.within_setGroup _ _ _) fun k u hu hk hapart => ?_
    exact hapart.setGroup (by simpa using others_eq_false hfree hu hk) _
  | add conn g ids member =>
    simp only [GroupStore.step, Option.bind_eq_some_iff, Option.ite_none_right_eq_some, Option.some.injEq] at hstep
    obtain ⟨t, ht, ⟨hemptied, hfree, -, hnew, -⟩, rfl⟩ := hstep
    exact h.add ht hn hemptied hfree hnew
  | sealGroup conn g =>
    simp only [GroupStore.step, Option.bind_eq_some_iff, Option.ite_none_right_eq_some, Option.some.injEq] at hstep
    obtain ⟨t, ht, ⟨hemptied, hfree⟩, rfl⟩ := hstep
    have hframe : t.frame.Sound shardCount σ.db [] := hemptied ▸ (h.sound conn t ht).frame
    refine h.advance ht (hemptied ▸ hframe.sealGroup h.exact g)
      (Frame.within_setGroup _ _ _) fun k u hu hk hapart => ?_
    exact hapart.setGroup (by simpa using others_eq_false hfree hu hk) _
  | cancel conn g =>
    simp only [GroupStore.step, Option.bind_eq_some_iff, Option.ite_none_right_eq_some, Option.some.injEq] at hstep
    obtain ⟨t, ht, ⟨hemptied, hfree, -⟩, rfl⟩ := hstep
    have hframe : t.frame.Sound shardCount σ.db [] := hemptied ▸ (h.sound conn t ht).frame
    refine h.advance ht (hemptied ▸ (hframe.lockGroup h.exact g).cancelGroup h.exact g)
      ((Frame.within_lockGroup _ _ _).trans (Frame.within_setGroup _ _ _)) fun k u hu hk hapart => ?_
    obtain ⟨hug, hus⟩ := groupFree_spec hfree hu hk
    exact (hapart.lockGroup hug hus).setGroup hug _
  | savepoint conn =>
    simp only [GroupStore.step, Option.bind_eq_some_iff, Option.ite_none_right_eq_some, Option.some.injEq] at hstep
    obtain ⟨t, ht, hemptied, rfl⟩ := hstep
    have hsound := h.sound conn t ht
    have hframe : t.frame.Sound shardCount σ.db [] := hemptied ▸ hsound.frame
    refine h.set ⟨hsound.frame, fun f hf => ?_, ?_⟩ fun k u hu hk =>
      h.apart conn k t u ht hu (Ne.symm hk)
    · rcases List.mem_cons.mp hf with rfl | hf
      · exact hframe
      · exact hsound.saved f hf
    · refine List.pairwise_cons.mpr ⟨fun f hf => ?_, hsound.nested⟩
      rcases List.mem_cons.mp hf with rfl | hf
      · exact .refl _
      · exact (List.pairwise_cons.mp hsound.nested).1 f hf
  | rollbackTo conn =>
    simp only [GroupStore.step, Option.bind_eq_some_iff] at hstep
    obtain ⟨t, ht, hstep⟩ := hstep
    have hsound := h.sound conn t ht
    cases hsaved : t.savepoints with
    | nil => simp [hsaved] at hstep
    | cons f rest =>
      simp only [hsaved, Option.some.injEq] at hstep
      subst hstep
      have hnested := hsound.nested
      rw [hsaved] at hnested
      obtain ⟨hhead, htail⟩ := List.pairwise_cons.mp hnested
      have hf : f ∈ t.savepoints := hsaved ▸ List.mem_cons_self
      refine h.set ⟨hsound.saved f hf, fun f' hf' => hsound.saved f' (hsaved ▸ hf'), ?_⟩ fun k u hu hk =>
        (h.apart conn k t u ht hu (Ne.symm hk)).of_within (hhead f List.mem_cons_self)
      refine List.pairwise_cons.mpr ⟨fun f' hf' => ?_, htail⟩
      rcases List.mem_cons.mp hf' with rfl | hf'
      · exact .refl _
      · exact (List.pairwise_cons.mp htail).1 f' hf'
  | release conn =>
    simp only [GroupStore.step, Option.bind_eq_some_iff] at hstep
    obtain ⟨t, ht, hstep⟩ := hstep
    have hsound := h.sound conn t ht
    cases hsaved : t.savepoints with
    | nil => simp [hsaved] at hstep
    | cons f rest =>
      simp only [hsaved, Option.some.injEq] at hstep
      subst hstep
      have hnested := hsound.nested
      rw [hsaved] at hnested
      obtain ⟨hhead, htail⟩ := List.pairwise_cons.mp hnested
      refine h.set ⟨hsound.frame, fun f' hf' => hsound.saved f' (hsaved ▸ List.mem_cons_of_mem _ hf'), ?_⟩
        fun k u hu hk => h.apart conn k t u ht hu (Ne.symm hk)
      exact List.pairwise_cons.mpr ⟨fun f' hf' => hhead f' (List.mem_cons_of_mem _ hf'),
        (List.pairwise_cons.mp htail).2⟩
  | commit conn =>
    simp only [GroupStore.step, Option.bind_eq_some_iff, Option.ite_none_right_eq_some, Option.some.injEq] at hstep
    obtain ⟨t, ht, ⟨hemptied, hlisted⟩, rfl⟩ := hstep
    exact h.commit ht hemptied hlisted
  | rollback conn =>
    simp only [GroupStore.step, Option.some.injEq] at hstep
    subst hstep
    exact ⟨h.exact, fun k u hu => h.sound k u (get?_erase_txs hu).2,
      fun k k' u u' hu hu' => h.apart k k' u u' (get?_erase_txs hu).2 (get?_erase_txs hu').2⟩

theorem Inv.run (hn : ∀ g, 0 < shardCount g) (h : σ.Inv shardCount) {events : List GroupEvent}
    (hrun : σ.run shardCount events = some σ') : σ'.Inv shardCount := by
  induction events generalizing σ with
  | nil =>
    cases hrun
    exact h
  | cons e events ih =>
    obtain ⟨τ, hstep, hrun⟩ := Option.bind_eq_some_iff.mp hrun
    exact ih (h.step hn hstep) hrun

end GroupStore

end Workhorse
