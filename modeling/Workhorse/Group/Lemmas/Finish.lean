import Workhorse.Group.Lemmas.Interleaving

/-!
# Finished groups

A sealed group has a pending shard until the statement that counts its last outcome finishes it, and the
rows of a finished group stay as they are.
-/

namespace Workhorse

variable {shardCount : GroupId → Nat}

structure Group.Good (group : Group) : Prop where
  sealed : group.state = .sealed → 0 < group.pendingShards
  finished : group.state = .finished → group.pendingShards = 0 ∧
    group.succeeded = some (decide (group.counts .succeeded = group.counts .total)) ∧ group.callbacks =
      [.onFinish, if group.counts .succeeded = group.counts .total then .onSuccess else .onFailure]
  waiting : group.state ≠ .finished → group.callbacks = [] ∧ group.succeeded = none

structure Frame.Settles (shardCount : GroupId → Nat) (db : GroupDb) (f : Frame) : Prop where
  good : ∀ g, ((db.view f).groups g).Good
  counts : ∀ g, ((db.view f).groups g).state = .finished → ((db.view f).groups g).counts = f.sum shardCount db g
  group : ∀ g, (db.groups g).state = .finished → (db.view f).groups g = db.groups g
  shards : ∀ g, (db.groups g).state = .finished → ∀ s, (db.view f).shards (g, s) = db.shards (g, s)
  members : ∀ g, (db.groups g).state = .finished → ∀ id m, f.members.get? id = some m → m.group ≠ g

namespace Frame

variable {db : GroupDb} {f f' u : Frame} {emptied : List ShardKey} {key : ShardKey} {g : GroupId}
  {id : TaskId}

theorem sum_congr {db' : GroupDb} (h : ∀ s, (db.view f).shards (g, s) = (db'.view f').shards (g, s)) :
    f.sum shardCount db g = f'.sum shardCount db' g := by
  funext column
  simp [Frame.sum, h]

/-! ## Groups without a pending shard -/

theorem Sound.lt_of_pending (hn : ∀ g, 0 < shardCount g) (hdb : db.Exact shardCount)
    (h : f.Sound shardCount db emptied) {s : Nat} (hpos : 0 < ((db.view f).shards (g, s)).pending) :
    s < shardCount g := by
  by_contra hge
  have hno (m : Member) : m.key shardCount ≠ (g, s) := by
    intro hm
    have hlt := m.key_lt hn
    rw [hm] at hlt
    exact hge hlt
  have hlisted (column : Column) : f.listedIn shardCount (g, s) column = 0 :=
    Table.count_eq_zero_iff.mpr fun _ m _ => by simp [hno m]
  have hunfinished : unfinished shardCount (db.view f).members (g, s) = 0 :=
    Table.count_eq_zero_iff.mpr fun _ m _ => by simp [hno m]
  rw [h.pending_view hdb, hlisted, hlisted, hlisted, hunfinished] at hpos
  exact absurd hpos (lt_irrefl 0)

theorem Sound.pending_of_card (hn : ∀ g, 0 < shardCount g) (hdb : db.Exact shardCount)
    (h : f.Sound shardCount db emptied) (hcard : ((db.view f).pendingShards shardCount g).card = 0)
    (s : Nat) : ((db.view f).shards (g, s)).pending = 0 := by
  by_contra hne
  have hpos := Nat.pos_of_ne_zero hne
  have hin : s ∈ (db.view f).pendingShards shardCount g := mem_pendingShards.mpr ⟨h.lt_of_pending hn hdb hpos, hpos⟩
  rw [Finset.card_eq_zero.mp hcard] at hin
  simp at hin

theorem Sound.pending_eq_zero (hn : ∀ g, 0 < shardCount g) (hdb : db.Exact shardCount)
    (h : f.Sound shardCount db emptied) (hzero : ((db.view f).groups g).pendingShards = 0) (s : Nat) :
    ((db.view f).shards (g, s)).pending = 0 := by
  have hview := h.pendingShards_view hdb g
  exact h.pending_of_card hn hdb (by omega) s

theorem Sound.pending_of_finished (hn : ∀ g, 0 < shardCount g) (hdb : db.Exact shardCount)
    (h : f.Sound shardCount db emptied) (hs : f.Settles shardCount db)
    (hfinished : ((db.view f).groups g).state = .finished) (s : Nat) :
    ((db.view f).shards (g, s)).pending = 0 :=
  h.pending_eq_zero hn hdb ((hs.good g).finished hfinished).1 s

theorem Sound.pending_of_member (hdb : db.Exact shardCount) (h : f.Sound shardCount db emptied)
    {m : Member} (hm : (db.view f).members.get? id = some m) (hnone : m.outcome = none) :
    0 < ((db.view f).shards (m.key shardCount)).pending := by
  have hpos : 0 < unfinished shardCount (db.view f).members (m.key shardCount) :=
    Table.count_pos_iff.mpr ⟨id, m, hm, by simp [hnone]⟩
  rw [h.pending_view hdb]
  omega

theorem Sound.sum_eq (hdb : db.Exact shardCount) (h : f.Sound shardCount db emptied)
    (hzero : ∀ s, ((db.view f).shards (g, s)).pending = 0) :
    f.sum shardCount db g .succeeded + f.sum shardCount db g .failed + f.sum shardCount db g .canceled =
      f.sum shardCount db g .total := by
  have heach (s : Nat) : (db.view f).shards (g, s) .succeeded + (db.view f).shards (g, s) .failed +
      (db.view f).shards (g, s) .canceled = (db.view f).shards (g, s) .total := by
    have hle := h.outcomes_le hdb (g, s)
    have hs := hzero s
    unfold Shard.pending at hs
    omega
  unfold Frame.sum
  induction List.range (shardCount g) with
  | nil => rfl
  | cons s rest ih =>
    have hs := heach s
    simp only [List.map_cons, List.sum_cons]
    omega

theorem Sound.finish (hdb : db.Exact shardCount) (h : f.Sound shardCount db emptied) (g : GroupId)
    (group : Group)
    (hzero : group.pendingShards = 0 → ∀ s, ((db.view f).shards (g, s)).pending = 0)
    (hstate : group.state ≠ .finished) (hwaiting : group.callbacks = [] ∧ group.succeeded = none) :
    (f.finish shardCount db g group).Good ∧ ((f.finish shardCount db g group).state = .finished →
      (f.finish shardCount db g group).counts = f.sum shardCount db g) := by
  unfold Frame.finish
  dsimp only
  split
  · next hfinish =>
    refine ⟨⟨fun hs => ?_, fun _ => ⟨hfinish.2.1, rfl, ?_⟩, fun hs => absurd rfl hs⟩, fun _ => rfl⟩
    · cases hs
    · simp [hwaiting.1]
  · next hfinish =>
    refine ⟨⟨fun hs => ?_, fun hs => absurd hs hstate, fun _ => hwaiting⟩, fun hs => absurd hs hstate⟩
    by_contra hpos
    have hp : group.pendingShards = 0 := by omega
    exact hfinish ⟨hs, hp, h.sum_eq hdb (hzero hp)⟩

/-! ## Statements -/

theorem Settles.not_finished (h : f.Settles shardCount db)
    (hstate : ((db.view f).groups g).state ≠ .finished) : (db.groups g).state ≠ .finished := by
  intro hfinished
  rw [h.group g hfinished] at hstate
  exact hstate hfinished

theorem Settles.setGroup (h : f.Settles shardCount db) {group : Group} (hgood : group.Good)
    (hcounts : group.state = .finished → group.counts = f.sum shardCount db g)
    (hgroup : (db.groups g).state = .finished → group = db.groups g) :
    (f.setGroup g group).Settles shardCount db := by
  have hview (g' : GroupId) : (db.view (f.setGroup g group)).groups g' =
      if g' = g then group else (db.view f).groups g' := by
    by_cases hgg : g' = g
    · simp [GroupDb.view, Frame.setGroup, hgg]
    · simp [GroupDb.view, Frame.setGroup, hgg]
  refine ⟨fun g' => ?_, fun g' => ?_, fun g' hg' => ?_, h.shards, h.members⟩
  · rw [hview]
    split
    · exact hgood
    · exact h.good g'
  · rw [hview]
    split
    · next hgg =>
      subst hgg
      exact hcounts
    · exact h.counts g'
  · rw [hview]
    split
    · next hgg =>
      subst hgg
      exact hgroup hg'
    · exact h.group g' hg'

theorem Settles.applyGroup (hn : ∀ g, 0 < shardCount g) (hdb : db.Exact shardCount)
    (h : f.Sound shardCount db emptied) (hs : f.Settles shardCount db)
    (hemptied : 0 < emptied.countP fun k => k.1 = g) :
    (f.applyGroup shardCount db g (emptied.countP fun k => k.1 = g)).Settles shardCount db := by
  have hview := h.pendingShards_view hdb g
  have hstate : ((db.view f).groups g).state ≠ .finished := by
    intro hfinished
    have hzero := ((hs.good g).finished hfinished).1
    omega
  obtain ⟨hgood, hcounts⟩ := h.finish hdb g
    { (db.view f).groups g with
      pendingShards := ((db.view f).groups g).pendingShards - emptied.countP fun k => k.1 = g }
    (fun hzero => h.pending_of_card hn hdb (by
      dsimp only at hzero
      omega)) hstate ((hs.good g).waiting hstate)
  exact hs.setGroup hgood hcounts fun hfinished => absurd hfinished (hs.not_finished hstate)

theorem Settles.sealGroup (hn : ∀ g, 0 < shardCount g) (hdb : db.Exact shardCount)
    (h : f.Sound shardCount db []) (hs : f.Settles shardCount db) (g : GroupId) :
    (f.sealGroup shardCount db g).Settles shardCount db := by
  unfold Frame.sealGroup
  dsimp only
  split
  · next hopen =>
    have hstate : ((db.view f).groups g).state ≠ .finished := by simp [hopen]
    obtain ⟨hgood, hcounts⟩ := h.finish hdb g
      { (db.view f).groups g with state := .sealed }
      (fun hzero => h.pending_eq_zero hn hdb hzero) (by simp) ((hs.good g).waiting hstate)
    exact hs.setGroup hgood hcounts fun hfinished => absurd hfinished (hs.not_finished hstate)
  · exact hs.setGroup (hs.good g) (hs.counts g) (hs.group g)

theorem Settles.cancelGroup (hn : ∀ g, 0 < shardCount g) (hdb : db.Exact shardCount)
    (h : f.Sound shardCount db []) (hs : f.Settles shardCount db)
    (hstate : ((db.view f).groups g).state ≠ .finished) :
    (f.cancelGroup shardCount db g).Settles shardCount db := by
  obtain ⟨hgood, hcounts⟩ := h.finish hdb g
    { (db.view f).groups g with state := .sealed, canceled := true }
    (fun hzero => h.pending_eq_zero hn hdb hzero) (by simp) ((hs.good g).waiting hstate)
  exact hs.setGroup hgood hcounts fun hfinished => absurd hfinished (hs.not_finished hstate)

theorem Settles.lockGroup (hs : f.Settles shardCount db) (g : GroupId) :
    (f.lockGroup shardCount db g).Settles shardCount db := by
  have hview := view_lockGroup shardCount db f g
  refine ⟨fun g' => ?_, fun g' => ?_, fun g' => ?_, fun g' => ?_, hs.members⟩
  · rw [hview]
    exact hs.good g'
  · have hsum : (f.lockGroup shardCount db g).sum shardCount db g' = f.sum shardCount db g' :=
      sum_congr fun s => by rw [hview]
    rw [hview, hsum]
    exact hs.counts g'
  · rw [hview]
    exact hs.group g'
  · rw [hview]
    exact hs.shards g'

theorem Settles.record (hn : ∀ g, 0 < shardCount g) (hdb : db.Exact shardCount)
    (h : f.Sound shardCount db emptied) (hs : f.Settles shardCount db) {m : Member}
    (hm : (db.view f).members.get? id = some m) (hnone : m.outcome = none) (outcome : OutcomeState) :
    (f.record id m outcome).Settles shardCount db := by
  refine ⟨hs.good, hs.counts, hs.group, hs.shards, fun g hfinished i r hr => ?_⟩
  by_cases hid : i = id
  · have hr' : { m with outcome := some outcome } = r := by simpa [Frame.record, hid] using hr
    rintro rfl
    have hpos := h.pending_of_member hdb hm hnone
    have hgroup : r.group = m.group := by rw [← hr']
    rw [hgroup] at hfinished
    have hzero := h.pending_of_finished hn hdb hs
      (show ((db.view f).groups m.group).state = .finished by rw [hs.group _ hfinished]; exact hfinished)
      ((m.position - 1) % shardCount m.group)
    have hkey : m.key shardCount = (m.group, (m.position - 1) % shardCount m.group) := rfl
    rw [hkey, hzero] at hpos
    exact absurd hpos (lt_irrefl 0)
  · exact hs.members g hfinished i r (by simpa [Frame.record, hid] using hr)

theorem Settles.shard (hs : f.Settles shardCount db)
    (hshards : ∀ k, k.1 ≠ g → (db.view f').shards k = (db.view f).shards k)
    (hgroups : ∀ g', g' ≠ g → (db.view f').groups g' = (db.view f).groups g')
    (hgood : ((db.view f').groups g).Good) (hafter : ((db.view f').groups g).state ≠ .finished)
    (hbefore : ((db.view f).groups g).state ≠ .finished)
    (hmembers : ∀ id m, f'.members.get? id = some m → m.group = g ∨ f.members.get? id = some m) :
    f'.Settles shardCount db := by
  have hne {g' : GroupId} (hfinished : (db.groups g').state = .finished) : g' ≠ g := by
    rintro rfl
    exact hs.not_finished hbefore hfinished
  refine ⟨fun g' => ?_, fun g' hg' => ?_, fun g' hg' => ?_, fun g' hg' s => ?_, fun g' hg' i m hm => ?_⟩
  · by_cases hgg : g' = g
    · exact hgg ▸ hgood
    · rw [hgroups g' hgg]
      exact hs.good g'
  · have hgg : g' ≠ g := by
      rintro rfl
      exact hafter hg'
    rw [hgroups g' hgg] at hg' ⊢
    rw [hs.counts g' hg']
    exact sum_congr fun s => (hshards (g', s) hgg).symm
  · rw [hgroups g' (hne hg')]
    exact hs.group g' hg'
  · rw [hshards (g', s) (hne hg')]
    exact hs.shards g' hg' s
  · rcases hmembers i m hm with hgroup | hold
    · rintro rfl
      exact hne hg' hgroup
    · exact hs.members g' hg' i m hold

theorem Settles.applyShard (hn : ∀ g, 0 < shardCount g) (hdb : db.Exact shardCount)
    (h : f.Sound shardCount db emptied) (hs : f.Settles shardCount db) {m : Member} (hid : id ∈ f.listed)
    (hm : f.members.get? id = some m) (hkey : m.key shardCount = key) :
    (f.applyShard shardCount db key).Settles shardCount db := by
  have hpos : 0 < ((db.view f).shards key).pending := hkey ▸ h.pending_of_listed hdb hid hm
  have hstate : ((db.view f).groups key.1).state ≠ .finished := by
    intro hfinished
    have hzero : ((db.view f).shards key).pending = 0 := h.pending_of_finished hn hdb hs hfinished key.2
    omega
  refine hs.shard (fun k hk => ?_) (fun _ _ => rfl) (hs.good key.1) hstate hstate fun _ _ hr => .inr hr
  rw [view_shards_update db rfl k, if_neg fun heq => hk (congrArg Prod.fst heq)]

theorem state_addMember (shardCount : GroupId → Nat) (db : GroupDb) (f : Frame) (g : GroupId) (id : TaskId) :
    ((db.view (f.addMember shardCount db g id)).groups g).state = ((db.view f).groups g).state := by
  simp [GroupDb.view, Frame.addMember]

theorem Settles.addMember (hs : f.Settles shardCount db) (id : TaskId)
    (hstate : ((db.view f).groups g).state ≠ .finished) :
    (f.addMember shardCount db g id).Settles shardCount db := by
  have hafter := state_addMember shardCount db f g id
  refine hs.shard (fun k hk => ?_) (fun g' hg' => ?_) ⟨fun hsealed => ?_, fun hfinished => ?_, fun _ => ?_⟩
    (hafter ▸ hstate) hstate fun i m hm => ?_
  · rw [view_shards_update db rfl k, if_neg fun heq => hk (congrArg Prod.fst heq)]
  · simp [GroupDb.view, Frame.addMember, hg']
  · have hpos := (hs.good g).sealed (hafter ▸ hsealed)
    simp only [GroupDb.view, Frame.addMember, Function.update_self, Option.getD_some] at hpos ⊢
    omega
  · exact absurd (hafter ▸ hfinished) hstate
  · have hwaiting := (hs.good g).waiting hstate
    simpa [GroupDb.view, Frame.addMember] using hwaiting
  · by_cases hid : i = id
    · have hm' : ⟨g, f.sum shardCount db g .total + 1, none⟩ = m := by
        simpa [Frame.addMember, hid] using hm
      exact .inl (by rw [← hm'])
    · exact .inr (by simpa [Frame.addMember, hid] using hm)

/-! ## Commits -/

theorem Settles.rebase (hn : ∀ g, 0 < shardCount g) (hdb : db.Exact shardCount)
    (h : f.Sound shardCount db emptied) (hs : f.Settles shardCount db) (hu : u.Sound shardCount db [])
    (hus : u.Settles shardCount db) (hlisted : u.listed = []) (hapart : f.Apart u) :
    f.Settles shardCount (db.view u) := by
  have h' := h.rebase hu hlisted hapart
  have hquiet {g : GroupId} (hg : ((db.view u).groups g).state = .finished) (s : Nat) :
      ((db.view u).shards (g, s)).pending = 0 := hu.pending_of_finished hn hdb hus hg s
  -- A group that this commit finishes has no shard that another transaction holds.
  have hfree {g : GroupId} (hg : ((db.view u).groups g).state = .finished) (hgf : f.groups g = none)
      (s : Nat) : f.shards (g, s) = none := by
    cases hv : f.shards (g, s) with
    | none => rfl
    | some v =>
      have hpos := (h'.free g hgf s v hv).1
      rw [hquiet hg s] at hpos
      exact absurd hpos (lt_irrefl 0)
  have hheld {g : GroupId} {group : Group} (hg : ((db.view u).groups g).state = .finished)
      (hgf : f.groups g = some group) : (db.groups g).state = .finished ∧ u.groups g = none := by
    have hug : u.groups g = none := (hapart.groups g).resolve_left (by simp [hgf])
    exact ⟨by simpa [GroupDb.view, hug] using hg, hug⟩
  have hnone {g : GroupId} (hgf : f.groups g = none) :
      ((db.view u).view f).groups g = (db.view u).groups g := by simp [GroupDb.view, hgf]
  have hsome {g : GroupId} {group : Group} (hgf : f.groups g = some group) :
      ((db.view u).view f).groups g = (db.view f).groups g := by simp [GroupDb.view, hgf]
  have hshards (g : GroupId) (hg : ((db.view u).groups g).state = .finished) (s : Nat) :
      ((db.view u).view f).shards (g, s) = (db.view u).shards (g, s) := by
    cases hgf : f.groups g with
    | none => simp [GroupDb.view, hfree hg hgf s]
    | some group =>
      obtain ⟨hd, -⟩ := hheld hg hgf
      have hf := hs.shards g hd s
      rw [hus.shards g hd s]
      cases hv : f.shards (g, s) with
      | none =>
        have husame := hus.shards g hd s
        simpa [GroupDb.view, hv] using husame
      | some v => simpa [GroupDb.view, hv] using hf
  refine ⟨fun g => ?_, fun g hg => ?_, fun g hg => ?_, hshards, fun g hg i m hm => ?_⟩
  · cases hgf : f.groups g with
    | none =>
      rw [hnone hgf]
      exact hus.good g
    | some group =>
      rw [hsome hgf]
      exact hs.good g
  · cases hgf : f.groups g with
    | none =>
      rw [hnone hgf] at hg ⊢
      rw [hus.counts g hg]
      exact sum_congr fun s => (hshards g hg s).symm
    | some group =>
      rw [hsome hgf] at hg ⊢
      rw [hs.counts g hg]
      refine sum_congr fun s => ?_
      have hug : u.groups g = none := (hapart.groups g).resolve_left (by simp [hgf])
      have hzero := h.pending_of_finished hn hdb hs hg s
      cases hv : f.shards (g, s) with
      | some v => simp [GroupDb.view, hv]
      | none =>
        cases huv : u.shards (g, s) with
        | none => simp [GroupDb.view, hv, huv]
        | some v =>
          have hpos := (hu.free g hug s v huv).1
          simp only [GroupDb.view, hv, Option.getD_none] at hzero
          omega
  · cases hgf : f.groups g with
    | none => exact hnone hgf
    | some group =>
      obtain ⟨hd, -⟩ := hheld hg hgf
      rw [hsome hgf, hs.group g hd, hus.group g hd]
  · rintro rfl
    cases hgf : f.groups m.group with
    | some group => exact hs.members m.group (hheld hg hgf).1 i m hm rfl
    | none =>
      have hkey : m.key shardCount = (m.group, (m.position - 1) % shardCount m.group) := rfl
      rcases h'.rows i m hm with ⟨m₀, hm₀, hopen, hk, -⟩ | ⟨-, hlocked⟩
      · have hpos := hu.pending_of_member hdb hm₀ hopen
        rw [hk, hkey, hquiet hg] at hpos
        exact absurd hpos (lt_irrefl 0)
      · rw [hkey, hfree hg hgf] at hlocked
        cases hlocked

end Frame

/-! ## Runs -/

namespace GroupStore

variable {σ σ' : GroupStore} {conn : Nat} {t : GroupTx} {g : GroupId}

/-- What every transaction sees of finished groups, from the start and from its savepoints. -/
structure Closed (shardCount : GroupId → Nat) (σ : GroupStore) : Prop where
  db : Frame.blank.Settles shardCount σ.db
  txs : ∀ conn t, σ.txs.get? conn = some t →
    t.frame.Settles shardCount σ.db ∧ ∀ f ∈ t.savepoints, f.Settles shardCount σ.db

theorem closed_fresh (shardCount : GroupId → Nat) : fresh.Closed shardCount where
  db :=
    { good := fun _ => ⟨fun h => (nomatch h), fun h => (nomatch h), fun _ => ⟨rfl, rfl⟩⟩
      counts := fun _ h => nomatch h
      group := fun _ _ => rfl
      shards := fun _ _ _ => rfl
      members := fun _ h => nomatch h }
  txs _ _ h := nomatch h

theorem Closed.set (h : σ.Closed shardCount) (hf : t.frame.Settles shardCount σ.db)
    (hsaved : ∀ f ∈ t.savepoints, f.Settles shardCount σ.db) : (σ.set conn t).Closed shardCount := by
  refine ⟨h.db, fun k u hu => ?_⟩
  by_cases hk : k = conn
  · have hu' : t = u := by simpa [GroupStore.set, hk] using hu
    exact hu' ▸ ⟨hf, hsaved⟩
  · exact h.txs k u (by simpa [GroupStore.set, hk] using hu)

theorem Closed.commit (hn : ∀ g, 0 < shardCount g) (hinv : σ.Inv shardCount) (h : σ.Closed shardCount)
    (ht : σ.txs.get? conn = some t) (hemptied : t.emptied = []) (hlisted : t.frame.listed = []) :
    Closed shardCount { db := σ.db.view t.frame, txs := σ.txs.erase conn } := by
  have hframe : t.frame.Sound shardCount σ.db [] := hemptied ▸ (hinv.sound conn t ht).frame
  have hsettles := (h.txs conn t ht).1
  refine ⟨?_, fun k u hu => ?_⟩
  · exact h.db.rebase hn hinv.exact (Frame.sound_blank _ _) hframe hsettles hlisted
      ⟨fun _ => .inl rfl, fun _ => .inl rfl, fun _ => .inl rfl⟩
  · obtain ⟨hk, hu⟩ := get?_erase_txs hu
    have hsound := hinv.sound k u hu
    have hapart := hinv.apart k conn u t hu ht hk
    refine ⟨(h.txs k u hu).1.rebase hn hinv.exact hsound.frame hframe hsettles hlisted hapart, fun f hf => ?_⟩
    have hw : f.Within u.frame := (List.pairwise_cons.mp hsound.nested).1 f hf
    exact ((h.txs k u hu).2 f hf).rebase hn hinv.exact (hsound.saved f hf) hframe hsettles hlisted
      (hapart.of_within hw)

theorem Closed.step (hn : ∀ g, 0 < shardCount g) (hinv : σ.Inv shardCount) (h : σ.Closed shardCount)
    {e : GroupEvent} (hstep : σ.step shardCount e = some σ') : σ'.Closed shardCount := by
  cases e with
  | begin conn =>
    simp only [GroupStore.step, Option.ite_none_left_eq_some, Option.some.injEq] at hstep
    obtain ⟨-, rfl⟩ := hstep
    exact h.set h.db fun _ hf => absurd hf List.not_mem_nil
  | record conn id outcome =>
    simp only [GroupStore.step, Option.bind_eq_some_iff, Option.ite_none_right_eq_some, Option.some.injEq] at hstep
    obtain ⟨t, ht, m, hm, ⟨-, hnone, -⟩, rfl⟩ := hstep
    exact h.set ((h.txs conn t ht).1.record hn hinv.exact (hinv.sound conn t ht).frame hm hnone outcome)
      (h.txs conn t ht).2
  | applyShard conn key =>
    simp only [GroupStore.step, Option.bind_eq_some_iff, Option.ite_none_right_eq_some, Option.some.injEq] at hstep
    obtain ⟨t, ht, ⟨hlisted, -⟩, rfl⟩ := hstep
    simp only [List.any_eq_true, Option.any_eq_true, decide_eq_true_eq] at hlisted
    obtain ⟨id, hid, m, hm, hkey⟩ := hlisted
    exact h.set ((h.txs conn t ht).1.applyShard hn hinv.exact (hinv.sound conn t ht).frame hid hm hkey)
      (h.txs conn t ht).2
  | applyGroup conn g =>
    simp only [GroupStore.step, Option.bind_eq_some_iff, Option.ite_none_right_eq_some, Option.some.injEq] at hstep
    obtain ⟨t, ht, ⟨hemptied, -⟩, rfl⟩ := hstep
    have hpos : 0 < t.emptied.countP fun k => k.1 = g := by
      simpa [List.countP_pos_iff] using hemptied
    exact h.set ((h.txs conn t ht).1.applyGroup hn hinv.exact (hinv.sound conn t ht).frame hpos)
      (h.txs conn t ht).2
  | add conn g ids member =>
    simp only [GroupStore.step, Option.bind_eq_some_iff, Option.ite_none_right_eq_some, Option.some.injEq] at hstep
    obtain ⟨t, ht, ⟨-, -, haccepts, -, -⟩, rfl⟩ := hstep
    refine h.set ?_ (h.txs conn t ht).2
    have hstate : ((σ.db.view (t.frame.lockGroup shardCount σ.db g)).groups g).state ≠ .finished := by
      simp only [accepts, Bool.and_eq_true, bne_iff_ne] at haccepts
      exact haccepts.1.2
    have hlock := (h.txs conn t ht).1.lockGroup g
    -- The group stays unfinished while its members are added.
    suffices hfold : ∀ (ids : List TaskId) (f : Frame), f.Settles shardCount σ.db →
        ((σ.db.view f).groups g).state ≠ .finished →
        (ids.foldl (fun f id => f.addMember shardCount σ.db g id) f).Settles shardCount σ.db from
      hfold ids _ hlock hstate
    intro ids
    induction ids with
    | nil => exact fun f hf _ => hf
    | cons id ids ih =>
      exact fun f hf hstate => ih _ (hf.addMember id hstate)
        (by rwa [Frame.state_addMember])
  | sealGroup conn g =>
    simp only [GroupStore.step, Option.bind_eq_some_iff, Option.ite_none_right_eq_some, Option.some.injEq] at hstep
    obtain ⟨t, ht, ⟨hemptied, -⟩, rfl⟩ := hstep
    have hframe : t.frame.Sound shardCount σ.db [] := hemptied ▸ (hinv.sound conn t ht).frame
    exact h.set ((h.txs conn t ht).1.sealGroup hn hinv.exact hframe g) (h.txs conn t ht).2
  | cancel conn g =>
    simp only [GroupStore.step, Option.bind_eq_some_iff, Option.ite_none_right_eq_some, Option.some.injEq] at hstep
    obtain ⟨t, ht, ⟨hemptied, -, hstate⟩, rfl⟩ := hstep
    have hframe : t.frame.Sound shardCount σ.db [] := hemptied ▸ (hinv.sound conn t ht).frame
    exact h.set (((h.txs conn t ht).1.lockGroup g).cancelGroup hn hinv.exact
      (hframe.lockGroup hinv.exact g) hstate) (h.txs conn t ht).2
  | savepoint conn =>
    simp only [GroupStore.step, Option.bind_eq_some_iff, Option.ite_none_right_eq_some, Option.some.injEq] at hstep
    obtain ⟨t, ht, -, rfl⟩ := hstep
    refine h.set (h.txs conn t ht).1 fun f hf => ?_
    rcases List.mem_cons.mp hf with rfl | hf
    · exact (h.txs conn t ht).1
    · exact (h.txs conn t ht).2 f hf
  | rollbackTo conn =>
    simp only [GroupStore.step, Option.bind_eq_some_iff] at hstep
    obtain ⟨t, ht, hstep⟩ := hstep
    cases hsaved : t.savepoints with
    | nil => simp [hsaved] at hstep
    | cons f rest =>
      simp only [hsaved, Option.some.injEq] at hstep
      subst hstep
      have hall := (h.txs conn t ht).2
      rw [hsaved] at hall
      exact h.set (hall f List.mem_cons_self) hall
  | release conn =>
    simp only [GroupStore.step, Option.bind_eq_some_iff] at hstep
    obtain ⟨t, ht, hstep⟩ := hstep
    cases hsaved : t.savepoints with
    | nil => simp [hsaved] at hstep
    | cons f rest =>
      simp only [hsaved, Option.some.injEq] at hstep
      subst hstep
      have hall := (h.txs conn t ht).2
      rw [hsaved] at hall
      exact h.set (h.txs conn t ht).1 fun f' hf' => hall f' (List.mem_cons_of_mem _ hf')
  | commit conn =>
    simp only [GroupStore.step, Option.bind_eq_some_iff, Option.ite_none_right_eq_some, Option.some.injEq] at hstep
    obtain ⟨t, ht, ⟨hemptied, hlisted⟩, rfl⟩ := hstep
    exact h.commit hn hinv ht hemptied hlisted
  | rollback conn =>
    simp only [GroupStore.step, Option.some.injEq] at hstep
    subst hstep
    exact ⟨h.db, fun k u hu => h.txs k u (get?_erase_txs hu).2⟩

theorem Closed.run (hn : ∀ g, 0 < shardCount g) (hinv : σ.Inv shardCount) (h : σ.Closed shardCount)
    {events : List GroupEvent} (hrun : σ.run shardCount events = some σ') : σ'.Closed shardCount := by
  induction events generalizing σ with
  | nil =>
    cases hrun
    exact h
  | cons e events ih =>
    obtain ⟨τ, hstep, hrun⟩ := Option.bind_eq_some_iff.mp hrun
    exact ih (hinv.step hn hstep) (h.step hn hinv hstep) hrun

structure SameGroup (g : GroupId) (db db' : GroupDb) : Prop where
  group : db'.groups g = db.groups g
  shards : ∀ s, db'.shards (g, s) = db.shards (g, s)
  members : ∀ id m, m.group = g → (db'.members.get? id = some m ↔ db.members.get? id = some m)

theorem step_db {e : GroupEvent} (hstep : σ.step shardCount e = some σ') :
    σ'.db = σ.db ∨ ∃ conn t, σ.txs.get? conn = some t ∧ σ'.db = σ.db.view t.frame := by
  cases e with
  | commit conn =>
    simp only [GroupStore.step, Option.bind_eq_some_iff, Option.ite_none_right_eq_some, Option.some.injEq] at hstep
    obtain ⟨t, ht, -, rfl⟩ := hstep
    exact .inr ⟨conn, t, ht, rfl⟩
  | _ =>
    left
    simp only [GroupStore.step, Option.bind_eq_some_iff, Option.ite_none_right_eq_some,
      Option.ite_none_left_eq_some, Option.some.injEq] at hstep
    grind [GroupStore.set]

theorem Closed.sameGroup_step (hinv : σ.Inv shardCount) (h : σ.Closed shardCount)
    (hg : (σ.db.groups g).state = .finished) {e : GroupEvent} (hstep : σ.step shardCount e = some σ') :
    SameGroup g σ.db σ'.db := by
  rcases step_db hstep with heq | ⟨conn, t, ht, heq⟩
  · rw [heq]
    exact ⟨rfl, fun _ => rfl, fun _ _ _ => .rfl⟩
  · rw [heq]
    have hs := (h.txs conn t ht).1
    refine ⟨hs.group g hg, hs.shards g hg, fun id m hm => ?_⟩
    simp only [GroupDb.view, Table.get?_overlay]
    cases hr : t.frame.members.get? id with
    | none => simp
    | some r =>
      have hne := hs.members g hg id r hr
      simp only [Option.some_or, Option.some.injEq]
      constructor
      · rintro rfl
        exact absurd hm hne
      · intro hd
        rcases (hinv.sound conn t ht).frame.rows id r hr with ⟨m₀, hm₀, -, hk, -⟩ | ⟨hnone, -⟩
        · cases hd.symm.trans hm₀
          have hgroup : m.group = r.group := congrArg Prod.fst hk
          exact absurd (hgroup ▸ hm) hne
        · cases hnone.symm.trans hd

/-- The rows of a finished group stay as they are. -/
theorem Closed.sameGroup_run (hn : ∀ g, 0 < shardCount g) (hinv : σ.Inv shardCount)
    (h : σ.Closed shardCount) (hg : (σ.db.groups g).state = .finished) {events : List GroupEvent}
    (hrun : σ.run shardCount events = some σ') : SameGroup g σ.db σ'.db := by
  induction events generalizing σ with
  | nil =>
    cases hrun
    exact ⟨rfl, fun _ => rfl, fun _ _ _ => .rfl⟩
  | cons e events ih =>
    obtain ⟨τ, hstep, hrun⟩ := Option.bind_eq_some_iff.mp hrun
    have hsame := h.sameGroup_step hinv hg hstep
    have hrest := ih (hinv.step hn hstep) (h.step hn hinv hstep) (by rw [hsame.group]; exact hg) hrun
    exact ⟨hrest.group.trans hsame.group, fun s => (hrest.shards s).trans (hsame.shards s),
      fun id m hm => (hrest.members id m hm).trans (hsame.members id m hm)⟩

end GroupStore

end Workhorse
