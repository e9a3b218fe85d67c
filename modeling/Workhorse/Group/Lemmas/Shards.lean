import Workhorse.Group.Lemmas.Tally

/-!
# Statements on shards and groups

Each statement keeps what holds of the rows that its transaction has locked.
-/

namespace Workhorse.Frame

variable {shardCount : GroupId → Nat} {db : GroupDb} {f : Frame} {emptied : List ShardKey} {key : ShardKey}
  {g : GroupId} {id : TaskId}

structure Within (f f' : Frame) : Prop where
  members : ∀ id, f'.members.get? id = none → f.members.get? id = none
  shards : ∀ key, f'.shards key = none → f.shards key = none
  groups : ∀ g, f'.groups g = none → f.groups g = none

theorem Within.refl (f : Frame) : f.Within f := ⟨fun _ h => h, fun _ h => h, fun _ h => h⟩

theorem Within.trans {f f' f'' : Frame} (h : f.Within f') (h' : f'.Within f'') : f.Within f'' :=
  ⟨fun i hi => h.members i (h'.members i hi), fun k hk => h.shards k (h'.shards k hk),
    fun g hg => h.groups g (h'.groups g hg)⟩

structure Apart (f f' : Frame) : Prop where
  members : ∀ id, f.members.get? id = none ∨ f'.members.get? id = none
  shards : ∀ key, f.shards key = none ∨ f'.shards key = none
  groups : ∀ g, f.groups g = none ∨ f'.groups g = none

theorem Apart.symm {f f' : Frame} (h : f.Apart f') : f'.Apart f :=
  ⟨fun i => (h.members i).symm, fun k => (h.shards k).symm, fun g => (h.groups g).symm⟩

theorem Apart.of_within {f f' u : Frame} (h : f'.Apart u) (hf : f.Within f') : f.Apart u :=
  ⟨fun i => (h.members i).imp_left (hf.members i), fun k => (h.shards k).imp_left (hf.shards k),
    fun g => (h.groups g).imp_left (hf.groups g)⟩

theorem sound_blank (shardCount : GroupId → Nat) (db : GroupDb) : blank.Sound shardCount db [] where
  rows _ _ h := nomatch h
  unapplied _ _ h := nomatch h
  listed _ h := nomatch h
  counts _ _ h := nomatch h
  held _ _ h := nomatch h
  free _ _ _ _ h := nomatch h
  drained _ h := nomatch h
  nodup := .nil

/-! ## Pending members -/

theorem Sound.pending_view (hdb : db.Exact shardCount) (h : f.Sound shardCount db emptied) (key : ShardKey) :
    ((db.view f).shards key).pending = unfinished shardCount (db.view f).members key +
      f.listedIn shardCount key .succeeded + f.listedIn shardCount key .failed +
        f.listedIn shardCount key .canceled := by
  have htotal := tally_total shardCount (db.view f).members key
  have hview := h.view_exact hdb key
  have h₁ := hview .total
  have h₂ := hview .succeeded
  have h₃ := hview .failed
  have h₄ := hview .canceled
  rw [listedIn_total] at h₁
  unfold Shard.pending
  omega

theorem Sound.outcomes_le (hdb : db.Exact shardCount) (h : f.Sound shardCount db emptied) (key : ShardKey) :
    (db.view f).shards key .succeeded + (db.view f).shards key .failed + (db.view f).shards key .canceled ≤
      (db.view f).shards key .total := by
  have htotal := tally_total shardCount (db.view f).members key
  have h₁ := h.view_exact hdb key .total
  have h₂ := h.view_exact hdb key .succeeded
  have h₃ := h.view_exact hdb key .failed
  have h₄ := h.view_exact hdb key .canceled
  rw [listedIn_total] at h₁
  omega

theorem Sound.counted_eq (hdb : db.Exact shardCount) (h : f.Sound shardCount db emptied) (key : ShardKey) :
    f.counted shardCount db key = tally shardCount (db.view f).members key :=
  funext fun column => h.view_exact hdb key column

theorem pending_tally (members : Table TaskId Member) (key : ShardKey) :
    Shard.pending (tally shardCount members key) = unfinished shardCount members key := by
  have htotal := tally_total shardCount members key
  unfold Shard.pending
  omega

theorem Sound.pending_of_listed (hdb : db.Exact shardCount) (h : f.Sound shardCount db emptied)
    {m : Member} (hid : id ∈ f.listed) (hm : f.members.get? id = some m) :
    0 < ((db.view f).shards (m.key shardCount)).pending := by
  obtain ⟨m', hm', hsome⟩ := h.listed id hid
  cases hm.symm.trans hm'
  obtain ⟨o, ho⟩ := Option.isSome_iff_exists.mp hsome
  have hpos : 0 < f.listedIn shardCount (m.key shardCount) (.of o) :=
    Table.count_pos_iff.mpr ⟨id, m, hm, by simp [hid, ho]⟩
  rw [h.pending_view hdb]
  cases o <;> simp only [Column.of] at hpos <;> omega

/-! ## Shards without a pending member -/

theorem card_emptied (hnodup : emptied.Nodup) (hlt : ∀ k ∈ emptied, k.2 < shardCount k.1) (g : GroupId) :
    ((Finset.range (shardCount g)).filter fun s => (g, s) ∈ emptied).card = emptied.countP fun k => k.1 = g := by
  induction emptied with
  | nil => simp
  | cons k emptied ih =>
    obtain ⟨hnot, hnodup⟩ := List.nodup_cons.mp hnodup
    have ih := ih hnodup fun k hk => hlt k (List.mem_cons_of_mem _ hk)
    rw [List.countP_cons, ← ih]
    by_cases hg : k.1 = g
    · have hinsert : (Finset.range (shardCount g)).filter (fun s => (g, s) ∈ k :: emptied) =
          insert k.2 ((Finset.range (shardCount g)).filter fun s => (g, s) ∈ emptied) := by
        have hk := hlt k List.mem_cons_self
        ext s
        grind
      have hnotin : k.2 ∉ (Finset.range (shardCount g)).filter fun s => (g, s) ∈ emptied := by
        grind
      rw [hinsert, Finset.card_insert_of_notMem hnotin]
      simp [hg]
    · have hsame : (Finset.range (shardCount g)).filter (fun s => (g, s) ∈ k :: emptied) =
          (Finset.range (shardCount g)).filter fun s => (g, s) ∈ emptied := by
        ext s
        grind
      rw [hsame]
      simp [hg]

/-- The group row, as a transaction sees it, counts the shards that the transaction sees as pending and
those that it has emptied. -/
theorem Sound.pendingShards_view (hdb : db.Exact shardCount) (h : f.Sound shardCount db emptied)
    (g : GroupId) : ((db.view f).groups g).pendingShards =
      ((db.view f).pendingShards shardCount g).card + emptied.countP fun k => k.1 = g := by
  cases hg : f.groups g with
  | some group => simpa [GroupDb.view, hg] using h.held g group hg
  | none =>
    -- The shards that were pending are those that still are and those that were emptied.
    have hsplit : db.pendingShards shardCount g = (db.view f).pendingShards shardCount g ∪
        (Finset.range (shardCount g)).filter fun s => (g, s) ∈ emptied := by
      ext s
      simp only [GroupDb.pendingShards, Finset.mem_union, Finset.mem_filter, Finset.mem_range, GroupDb.view]
      have hfree := h.free g hg s
      have hdrained := h.drained (g, s)
      cases hs : f.shards (g, s) with
      | none => grind
      | some v => grind
    have hdisjoint : Disjoint ((db.view f).pendingShards shardCount g)
        ((Finset.range (shardCount g)).filter fun s => (g, s) ∈ emptied) := by
      rw [Finset.disjoint_left]
      intro s hs hs'
      obtain ⟨-, v, hv, hzero⟩ := h.drained _ (Finset.mem_filter.mp hs').2
      have hview : (db.view f).shards (g, s) = v := by simp [GroupDb.view, hv]
      have hpos : 0 < ((db.view f).shards (g, s)).pending := (Finset.mem_filter.mp hs).2
      rw [hview, hzero] at hpos
      exact absurd hpos (lt_irrefl 0)
    rw [← card_emptied h.nodup (fun k hk => (h.drained k hk).1), ← Finset.card_union_of_disjoint hdisjoint,
      ← hsplit, ← hdb.pendingShards]
    simp [GroupDb.view, hg]

theorem mem_pendingShards {db : GroupDb} {s : Nat} :
    s ∈ db.pendingShards shardCount g ↔ s < shardCount g ∧ 0 < (db.shards (g, s)).pending := by
  simp [GroupDb.pendingShards]

theorem pendingShards_congr {db db' : GroupDb} (h : ∀ s, s < shardCount g →
    (0 < (db.shards (g, s)).pending ↔ 0 < (db'.shards (g, s)).pending)) :
    db.pendingShards shardCount g = db'.pendingShards shardCount g := by
  ext s
  rw [mem_pendingShards, mem_pendingShards]
  exact and_congr_right fun hs => h s hs

theorem view_shards_update (db : GroupDb) {f' : Frame} {x : Shard}
    (h : f'.shards = Function.update f.shards key (some x))
    (k : ShardKey) : (db.view f').shards k = if k = key then x else (db.view f).shards k := by
  by_cases hk : k = key
  · simp [GroupDb.view, h, hk]
  · simp [GroupDb.view, h, hk]

/-! ## Group rows -/

theorem pendingShards_finish (db : GroupDb) (f : Frame) (g : GroupId) (group : Group) :
    (f.finish shardCount db g group).pendingShards = group.pendingShards := by
  unfold finish
  dsimp only
  split <;> rfl

theorem Sound.setGroup (hdb : db.Exact shardCount) (h : f.Sound shardCount db emptied) {group : Group}
    (hgroup : group.pendingShards + emptied.countP (fun k => k.1 = g) = ((db.view f).groups g).pendingShards) :
    (f.setGroup g group).Sound shardCount db (emptied.filter fun k => k.1 ≠ g) where
  rows := h.rows
  unapplied := h.unapplied
  listed := h.listed
  counts := h.counts
  held g' group' hg' := by
    change _ = ((db.view f).pendingShards shardCount g').card + _
    by_cases hgg : g' = g
    · subst hgg
      have hnew : group = group' := by simpa [Frame.setGroup] using hg'
      have hview := h.pendingShards_view hdb g'
      have hzero : (emptied.filter fun k => k.1 ≠ g').countP (fun k => k.1 = g') = 0 := by
        simp [List.countP_eq_zero]
      rw [hzero, ← hnew]
      omega
    · have hold : f.groups g' = some group' := by simpa [Frame.setGroup, hgg] using hg'
      have hcount : (emptied.filter fun k => k.1 ≠ g).countP (fun k => k.1 = g') =
          emptied.countP fun k => k.1 = g' := by
        rw [List.countP_filter]
        refine List.countP_congr fun k _ => ?_
        simp only [ne_eq, decide_not, Bool.and_eq_true, decide_eq_true_eq, Bool.not_eq_true',
          decide_eq_false_iff_not, and_iff_left_iff_imp]
        rintro rfl
        exact hgg
      rw [hcount]
      exact h.held g' group' hold
  free g' hg' s v hv := by
    have hgg : g' ≠ g := by
      rintro rfl
      simp [Frame.setGroup] at hg'
    have hold : f.groups g' = none := by simpa [Frame.setGroup, hgg] using hg'
    simpa [hgg] using h.free g' hold s v hv
  drained k hk := h.drained k (List.mem_of_mem_filter hk)
  nodup := h.nodup.filter _

theorem Sound.applyGroup (hdb : db.Exact shardCount) (h : f.Sound shardCount db emptied) (g : GroupId) :
    (f.applyGroup shardCount db g (emptied.countP fun k => k.1 = g)).Sound shardCount db
      (emptied.filter fun k => k.1 ≠ g) := by
  refine h.setGroup hdb ?_
  have hview := h.pendingShards_view hdb g
  rw [pendingShards_finish]
  dsimp only
  omega

theorem Sound.setGroup_nil (hdb : db.Exact shardCount) (h : f.Sound shardCount db []) {group : Group}
    (hgroup : group.pendingShards = ((db.view f).groups g).pendingShards) :
    (f.setGroup g group).Sound shardCount db [] :=
  h.setGroup hdb hgroup

theorem Sound.sealGroup (hdb : db.Exact shardCount) (h : f.Sound shardCount db []) (g : GroupId) :
    (f.sealGroup shardCount db g).Sound shardCount db [] := by
  refine h.setGroup_nil hdb ?_
  split
  · rw [pendingShards_finish]
  · rfl

theorem Sound.cancelGroup (hdb : db.Exact shardCount) (h : f.Sound shardCount db []) (g : GroupId) :
    (f.cancelGroup shardCount db g).Sound shardCount db [] := by
  refine h.setGroup_nil hdb ?_
  rw [pendingShards_finish]

theorem within_setGroup (f : Frame) (g : GroupId) (group : Group) : f.Within (f.setGroup g group) := by
  refine ⟨fun _ h => h, fun _ h => h, fun g' hg' => ?_⟩
  by_cases hgg : g' = g
  · simp [Frame.setGroup, hgg] at hg'
  · simpa [Frame.setGroup, hgg] using hg'

theorem Apart.setGroup {u : Frame} (h : f.Apart u) (hu : u.groups g = none) (group : Group) :
    (f.setGroup g group).Apart u := by
  refine ⟨h.members, h.shards, fun g' => ?_⟩
  by_cases hgg : g' = g
  · exact .inr (hgg ▸ hu)
  · simpa [Frame.setGroup, hgg] using h.groups g'

/-! ## Locks -/

theorem view_lockGroup (shardCount : GroupId → Nat) (db : GroupDb) (f : Frame) (g : GroupId) :
    db.view (f.lockGroup shardCount db g) = db.view f := by
  simp only [GroupDb.view, Frame.lockGroup, GroupDb.mk.injEq, true_and]
  refine ⟨funext fun k => ?_, funext fun g' => ?_⟩
  · split <;> rfl
  · by_cases hg : g' = g
    · simp [hg]
    · simp [hg]

theorem within_lockGroup (db : GroupDb) (f : Frame) (g : GroupId) : f.Within (f.lockGroup shardCount db g) := by
  refine ⟨fun _ h => h, fun k hk => ?_, fun g' hg' => ?_⟩
  · simp only [Frame.lockGroup] at hk
    split at hk
    · cases hk
    · exact hk
  · by_cases hgg : g' = g
    · simp [Frame.lockGroup, hgg] at hg'
    · simpa [Frame.lockGroup, hgg] using hg'

theorem Within.isSome_shards {f' : Frame} (h : f.Within f') (hk : (f.shards key).isSome = true) :
    (f'.shards key).isSome = true := by
  cases hk' : f'.shards key with
  | none =>
    rw [h.shards key hk'] at hk
    cases hk
  | some v => rfl

theorem Sound.lockGroup (hdb : db.Exact shardCount) (h : f.Sound shardCount db []) (g : GroupId) :
    (f.lockGroup shardCount db g).Sound shardCount db [] where
  rows id m hm := (h.rows id m hm).imp_right fun hnew =>
    ⟨hnew.1, (within_lockGroup db f g).isSome_shards hnew.2⟩
  unapplied id m hm hk := h.unapplied id m hm ((within_lockGroup db f g).shards _ hk)
  listed := h.listed
  counts k v hv column := by
    rw [view_lockGroup]
    simp only [Frame.lockGroup] at hv
    split at hv
    · cases hv
      exact h.view_exact hdb k column
    · exact h.counts k v hv column
  held g' group hg' := by
    rw [view_lockGroup]
    by_cases hgg : g' = g
    · subst hgg
      have hnew : (db.view f).groups g' = group := by simpa [Frame.lockGroup] using hg'
      rw [← hnew]
      exact h.pendingShards_view hdb g'
    · exact h.held g' group (by simpa [Frame.lockGroup, hgg] using hg')
  free g' hg' s v hv := by
    have hgg : g' ≠ g := by
      rintro rfl
      simp [Frame.lockGroup] at hg'
    exact h.free g' (by simpa [Frame.lockGroup, hgg] using hg') s v
      (by simpa [Frame.lockGroup, hgg] using hv)
  drained _ hk := nomatch hk
  nodup := .nil

theorem Apart.lockGroup {u : Frame} (h : f.Apart u) (hu : u.groups g = none)
    (hus : ∀ s < shardCount g, u.shards (g, s) = none) : (f.lockGroup shardCount db g).Apart u := by
  refine ⟨h.members, fun k => ?_, fun g' => ?_⟩
  · obtain ⟨g', s⟩ := k
    by_cases hk : g' = g ∧ s < shardCount g
    · obtain ⟨rfl, hs⟩ := hk
      exact .inr (hus s hs)
    · simpa [Frame.lockGroup, hk] using h.shards (g', s)
  · by_cases hgg : g' = g
    · exact .inr (hgg ▸ hu)
    · simpa [Frame.lockGroup, hgg] using h.groups g'

/-! ## Membership rows -/

theorem tally_view_put (shardCount : GroupId → Nat) (db : GroupDb) (f : Frame) (id : TaskId) (r : Member)
    (key : ShardKey)
    (column : Column) :
    tally shardCount (db.members.overlay (f.members.put id r)) key column +
      (if ((db.view f).members.get? id).any (fun m => m.key shardCount = key && m.inColumn column) then 1
        else 0) =
    tally shardCount (db.view f).members key column + if r.key shardCount = key && r.inColumn column then 1 else 0 := by
  have hput := Table.count_put_add (db.view f).members id r
    fun _ m => m.key shardCount = key && m.inColumn column
  unfold tally
  rw [← hput]
  congr 1
  refine Table.count_eq_of_get? fun id' m _ => ?_
  by_cases hid : id' = id
  · simp [hid]
  · simp [hid, GroupDb.view]

theorem within_record (f : Frame) (id : TaskId) (m : Member) (outcome : OutcomeState) :
    f.Within (f.record id m outcome) := by
  refine ⟨fun i hi => ?_, fun _ h => h, fun _ h => h⟩
  by_cases hid : i = id
  · simp [Frame.record, hid] at hi
  · simpa [Frame.record, hid] using hi

theorem Apart.record {u : Frame} (h : f.Apart u) (hu : u.members.get? id = none) (m : Member)
    (outcome : OutcomeState) : (f.record id m outcome).Apart u := by
  refine ⟨fun i => ?_, h.shards, h.groups⟩
  by_cases hid : i = id
  · exact .inr (hid ▸ hu)
  · simpa [Frame.record, hid] using h.members i

theorem Sound.record (h : f.Sound shardCount db emptied) {m : Member}
    (hm : (db.view f).members.get? id = some m) (hnone : m.outcome = none) (outcome : OutcomeState) :
    (f.record id m outcome).Sound shardCount db emptied := by
  have hold : f.members.get? id = some m ∨ f.members.get? id = none ∧ db.members.get? id = some m := by
    simp only [GroupDb.view, Table.get?_overlay] at hm
    cases hf : f.members.get? id with
    | none => simpa [hf] using hm
    | some m' => simpa [hf] using hm
  have hnot : id ∉ f.listed := by
    intro hid
    obtain ⟨m', hm', hsome⟩ := h.listed id hid
    rcases hold with hf | ⟨hf, -⟩
    · cases hm'.symm.trans hf
      simp [hnone] at hsome
    · cases hm'.symm.trans hf
  -- One more outcome is listed, and one more member has it.
  have hlist (key : ShardKey) (column : Column) : (f.record id m outcome).listedIn shardCount key column =
      f.listedIn shardCount key column + if m.key shardCount = key && Column.of outcome = column then 1 else 0 := by
    have hput := Table.count_put_add f.members id { m with outcome := some outcome }
      fun i r => i ∈ f.listed ++ [id] && r.key shardCount = key &&
        r.outcome.any fun o => Column.of o = column
    have hsame : f.members.count (fun i r => i ∈ f.listed ++ [id] && r.key shardCount = key &&
        r.outcome.any fun o => Column.of o = column) = f.listedIn shardCount key column := by
      refine Table.count_congr fun i r hr => ?_
      by_cases hid : i = id
      · subst hid
        rcases hold with hf | ⟨hf, -⟩
        · cases hr.symm.trans hf
          simp [hnone]
        · cases hr.symm.trans hf
      · simp [hid]
    have hbefore : ((f.members.get? id).any fun r => id ∈ f.listed ++ [id] && r.key shardCount = key &&
        r.outcome.any fun o => Column.of o = column) = false := by
      rcases hold with hf | ⟨hf, -⟩
      · simp [hf, hnone]
      · simp [hf]
    rw [hsame, hbefore] at hput
    refine Eq.trans rfl (hput.trans ?_)
    have hkey : Member.key shardCount { m with outcome := some outcome } = m.key shardCount := rfl
    simp [hkey]
  have htally (key : ShardKey) (column : Column) :
      tally shardCount (db.view (f.record id m outcome)).members key column =
      tally shardCount (db.view f).members key column +
        if m.key shardCount = key && Column.of outcome = column then 1 else 0 := by
    have hput := tally_view_put shardCount db f id { m with outcome := some outcome } key
      column
    rw [hm] at hput
    change tally shardCount (db.members.overlay (f.members.put id { m with outcome := some outcome }))
      key column = _
    have hkey : Member.key shardCount { m with outcome := some outcome } = m.key shardCount := rfl
    rw [hkey] at hput
    by_cases hk : m.key shardCount = key
    · cases column <;> cases outcome <;>
        simp_all [Member.inColumn, Column.of]
    · simpa [hk] using hput
  refine ⟨fun i r hr => ?_, fun i r hr hk => ?_, fun i hi => ?_, fun k v hv column => ?_, h.held, h.free,
    h.drained, h.nodup⟩
  · by_cases hid : i = id
    · subst hid
      have hr' : { m with outcome := some outcome } = r := by simpa [Frame.record] using hr
      subst hr'
      rcases hold with hf | ⟨-, hd⟩
      · rcases h.rows i m hf with ⟨_, _, _, _, hsome⟩ | hnew
        · simp [hnone] at hsome
        · exact .inr hnew
      · exact .inl ⟨m, hd, hnone, rfl, rfl⟩
    · exact h.rows i r (by simpa [Frame.record, hid] using hr)
  · by_cases hid : i = id
    · simp [Frame.record, hid]
    · exact List.mem_append_left _ (h.unapplied i r (by simpa [Frame.record, hid] using hr) hk)
  · by_cases hid : i = id
    · exact ⟨{ m with outcome := some outcome }, by simp [Frame.record, hid], rfl⟩
    · obtain ⟨r, hr, hsome⟩ := h.listed i (by simpa [Frame.record, hid] using hi)
      exact ⟨r, by simpa [Frame.record, hid] using hr, hsome⟩
  · rw [hlist, htally, ← Nat.add_assoc, h.counts k v hv column]

/-! ## Shard rows -/

theorem Sound.applyShard_eq (hdb : db.Exact shardCount) (h : f.Sound shardCount db emptied)
    (key : ShardKey) : f.applyShard shardCount db key = { f with
        shards := Function.update f.shards key (some (tally shardCount (db.view f).members key))
        listed := f.unlisted shardCount key } := by
  have htotal := tally_total shardCount (db.view f).members key
  unfold Frame.applyShard
  rw [h.counted_eq hdb, if_pos (by omega)]

theorem Sound.empties_iff (hdb : db.Exact shardCount) (h : f.Sound shardCount db emptied)
    (key : ShardKey) : f.empties shardCount db key = true ↔ unfinished shardCount (db.view f).members key = 0 := by
  have htotal := tally_total shardCount (db.view f).members key
  unfold Frame.empties
  rw [h.counted_eq hdb, pending_tally]
  simp only [Bool.and_eq_true, decide_eq_true_eq, beq_iff_eq, and_iff_right_iff_imp]
  omega

theorem within_applyShard (shardCount : GroupId → Nat) (db : GroupDb) (f : Frame) (key : ShardKey) :
    f.Within (f.applyShard shardCount db key) := by
  refine ⟨fun _ h => h, fun k hk => ?_, fun _ h => h⟩
  by_cases hkk : k = key
  · simp [Frame.applyShard, hkk] at hk
  · simpa [Frame.applyShard, hkk] using hk

theorem Apart.applyShard {u : Frame} (h : f.Apart u) (hu : u.shards key = none) :
    (f.applyShard shardCount db key).Apart u := by
  refine ⟨h.members, fun k => ?_, h.groups⟩
  by_cases hkk : k = key
  · exact .inr (hkk ▸ hu)
  · simpa [Frame.applyShard, hkk] using h.shards k

theorem Sound.applyShard (hn : ∀ g, 0 < shardCount g) (hdb : db.Exact shardCount)
    (h : f.Sound shardCount db emptied) {m : Member} (hid : id ∈ f.listed)
    (hm : f.members.get? id = some m) (hkey : m.key shardCount = key) :
    (f.applyShard shardCount db key).Sound shardCount db
      (if f.empties shardCount db key then key :: emptied else emptied) := by
  have hpos : 0 < ((db.view f).shards key).pending := hkey ▸ h.pending_of_listed hdb hid hm
  have hlt : key.2 < shardCount key.1 := hkey ▸ m.key_lt hn
  have hnotin : key ∉ emptied := by
    intro hk
    obtain ⟨-, v, hv, hzero⟩ := h.drained key hk
    simp [GroupDb.view, hv, hzero] at hpos
  have hempties := h.empties_iff hdb key
  have hwithin := within_applyShard shardCount db f key
  rw [h.applyShard_eq hdb] at hwithin ⊢
  generalize hE : (if f.empties shardCount db key then key :: emptied else emptied) = emptied'
  have hmem {k : ShardKey} (hk : k ≠ key) : k ∈ emptied' ↔ k ∈ emptied := by
    rw [← hE]
    split
    · simp [hk]
    · rfl
  have hview (k : ShardKey) : (db.view { f with
      shards := Function.update f.shards key (some (tally shardCount (db.view f).members key))
      listed := f.unlisted shardCount key }).shards k =
      if k = key then tally shardCount (db.view f).members key else (db.view f).shards k :=
    view_shards_update db rfl k
  refine ⟨fun i r hr => ?_, fun i r hr hk => ?_, fun i hi => h.listed i (List.mem_of_mem_filter hi),
    fun k v hv column => ?_, fun g group hg => ?_, fun g hg s v hv => ?_, fun k hk => ?_, ?_⟩
  · exact (h.rows i r hr).imp_right fun hnew => ⟨hnew.1, hwithin.isSome_shards hnew.2⟩
  · have hne : r.key shardCount ≠ key := by
      intro hrk
      simp [hrk] at hk
    have hi := h.unapplied i r hr (by simpa [hne] using hk)
    exact List.mem_filter.mpr ⟨hi, by simp [hr, hne]⟩
  · by_cases hkk : k = key
    · subst hkk
      have hv' : tally shardCount (db.view f).members k = v := by simpa using hv
      have hzero : Frame.listedIn shardCount { f with
          shards := Function.update f.shards k (some (tally shardCount (db.view f).members k))
          listed := f.unlisted shardCount k } k column = 0 := by
        refine Table.count_eq_zero_iff.mpr fun i r hr => ?_
        by_cases hrk : r.key shardCount = k
        · have hr' : f.members.get? i = some r := hr
          simp [Frame.unlisted, hr', hrk]
        · simp [hrk]
      rw [hzero, ← hv']
      rfl
    · have hsame : Frame.listedIn shardCount { f with
          shards := Function.update f.shards key (some (tally shardCount (db.view f).members key))
          listed := f.unlisted shardCount key } k column = f.listedIn shardCount k column := by
        refine Table.count_congr fun i r hr => ?_
        by_cases hrk : r.key shardCount = k
        · have hr' : f.members.get? i = some r := hr
          have hne : r.key shardCount ≠ key := hrk ▸ hkk
          simp [Frame.unlisted, hr', hne]
        · simp [hrk]
      rw [hsame]
      exact h.counts k v (by simpa [hkk] using hv) column
  · rw [h.held g group hg]
    by_cases hgk : g = key.1
    · subst hgk
      have hin : key.2 ∈ (db.view f).pendingShards shardCount key.1 := mem_pendingShards.mpr ⟨hlt, hpos⟩
      by_cases hzero : unfinished shardCount (db.view f).members key = 0
      · rw [if_pos (hempties.mpr hzero)] at hE
        have herase : GroupDb.pendingShards shardCount (db.view { f with
            shards := Function.update f.shards key (some (tally shardCount (db.view f).members key))
            listed := f.unlisted shardCount key }) key.1 =
            ((db.view f).pendingShards shardCount key.1).erase key.2 := by
          ext s
          rw [Finset.mem_erase, mem_pendingShards, mem_pendingShards, hview]
          by_cases hs : s = key.2
          · simp [hs, pending_tally, hzero]
          · have hne : (key.1, s) ≠ key := fun heq => hs (congrArg Prod.snd heq)
            simp [hs, hne]
        have hcard := Finset.card_erase_add_one hin
        rw [herase, ← hE, List.countP_cons]
        simp only [decide_true, if_true]
        omega
      · rw [if_neg fun he => hzero (hempties.mp he)] at hE
        rw [hE]
        congr 2
        refine pendingShards_congr fun s _ => ?_
        rw [hview]
        by_cases hs : (key.1, s) = key
        · rw [if_pos hs, pending_tally, hs]
          omega
        · rw [if_neg hs]
    · have hcount : emptied'.countP (fun k => k.1 = g) = emptied.countP fun k => k.1 = g := by
        rw [← hE]
        split
        · simp [Ne.symm hgk]
        · rfl
      rw [hcount]
      congr 2
      refine pendingShards_congr fun s _ => ?_
      rw [hview, if_neg fun heq => hgk (congrArg Prod.fst heq)]
  · by_cases hk : (g, s) = key
    · have hv' : tally shardCount (db.view f).members key = v := by simpa [hk] using hv
      have hbefore : 0 < (db.shards (g, s)).pending := by
        cases hold : f.shards (g, s) with
        | none => simpa [← hk, GroupDb.view, hold] using hpos
        | some w => exact (h.free g hg s w hold).1
      refine ⟨hbefore, ?_⟩
      rw [← hv', pending_tally]
      by_cases hzero : unfinished shardCount (db.view f).members key = 0
      · right
        rw [← hE, if_pos (hempties.mpr hzero), hk]
        exact List.mem_cons_self
      · exact .inl (Nat.pos_of_ne_zero hzero)
    · rw [hmem hk]
      exact h.free g hg s v (by simpa [hk] using hv)
  · by_cases hkk : k = key
    · have hzero : unfinished shardCount (db.view f).members key = 0 := by
        by_contra hne
        rw [← hE, if_neg fun he => hne (hempties.mp he)] at hk
        exact hnotin (hkk ▸ hk)
      subst hkk
      exact ⟨hlt, tally shardCount (db.view f).members k, by simp, by rw [pending_tally, hzero]⟩
    · obtain ⟨hlt', v, hv, hv0⟩ := h.drained k ((hmem hkk).mp hk)
      exact ⟨hlt', v, by simpa [hkk] using hv, hv0⟩
  · rw [← hE]
    split
    · exact List.nodup_cons.mpr ⟨hnotin, h.nodup⟩
    · exact h.nodup

end Workhorse.Frame
