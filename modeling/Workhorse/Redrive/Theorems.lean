import Mathlib.Data.Set.Card
import Workhorse.Redrive.Calls

/-!
# Results on redrive

A call keeps the lock of its source and request id from before it looks for an earlier row until its
commit, so the rows of all transactions, committed or not, have distinct keys.
-/

namespace Workhorse

/-! ## Distinct rows -/

def Redrive.Separate (e e' : Redrive) : Prop := e.key ≠ e'.key ∧ e.target ≠ e'.target

structure OpenRedrive.Sound (o : OpenRedrive) (rows : List Redrive) : Prop where
  held : ∀ e ∈ o.rows, e.key ∈ o.held
  fresh : ∀ e ∈ rows, ∀ e' ∈ o.rows, e.Separate e'
  separate : o.rows.Pairwise Redrive.Separate
  missed : o.missed = true → ∃ c cs, o.todo = c :: cs ∧ c.key ∈ o.held ∧ ∀ e ∈ rows ++ o.rows, e.key ≠ c.key

def OpenRedrive.Apart (o o' : OpenRedrive) : Prop :=
  (∀ k ∈ o.held, k ∉ o'.held) ∧ ∀ e ∈ o.rows, ∀ e' ∈ o'.rows, e.target ≠ e'.target

theorem OpenRedrive.Apart.symm {o o' : OpenRedrive} (h : o.Apart o') : o'.Apart o :=
  ⟨fun k hk hk' => h.1 k hk' hk, fun e he e' he' => (h.2 e' he' e he).symm⟩

theorem OpenRedrive.Sound.opened (todo : List RedriveCall) (rows : List Redrive) :
    OpenRedrive.Sound ⟨todo, [], false, []⟩ rows where
  held := fun _ h => absurd h List.not_mem_nil
  fresh := fun _ _ _ h => absurd h List.not_mem_nil
  separate := .nil
  missed := fun h => absurd h Bool.false_ne_true

theorem OpenRedrive.Sound.mono {o : OpenRedrive} {rows rows' : List Redrive} (h : o.Sound rows)
    (hsub : rows' ⊆ rows) : o.Sound rows' where
  held := h.held
  fresh := fun e he => h.fresh e (hsub he)
  separate := h.separate
  missed hm := by
    obtain ⟨c, cs, htodo, hheld, hfree⟩ := h.missed hm
    refine ⟨c, cs, htodo, hheld, fun e he => hfree e ?_⟩
    rw [List.mem_append] at he ⊢
    exact he.imp_left fun h => hsub h

theorem OpenRedrive.Apart.opened (todo : List RedriveCall) (o : OpenRedrive) :
    OpenRedrive.Apart ⟨todo, [], false, []⟩ o :=
  ⟨fun _ h => absurd h List.not_mem_nil, fun _ h => absurd h List.not_mem_nil⟩

theorem RedriveCall.create_row {c : RedriveCall} {db : Db} {now : Time} {target : TaskId} {sequence : Nat}
    {reply : RedriveReply} {copy : RedriveCopy} (h : c.create db now target sequence = .ok (reply, some copy)) :
    copy.redrive.key = c.key ∧ copy.redrive.target = target := by
  unfold create at h
  split at h
  · cases h
  · dsimp only at h
    split at h
    · cases h
    · split at h
      · cases h
      · split at h
        · cases h
        · cases h
          exact ⟨rfl, rfl⟩

theorem RedriveCall.existing_eq_none {c : RedriveCall} {rows : List Redrive} (h : c.existing rows = none) :
    ∀ e ∈ rows, e.key ≠ c.key := by
  intro e he
  simpa using List.find?_eq_none.mp h e he

theorem RedriveCall.existing_eq_some {c : RedriveCall} {rows : List Redrive} {e : Redrive}
    (h : c.existing rows = some e) : e ∈ rows ∧ e.key = c.key :=
  ⟨List.mem_of_find?_eq_some h, by simpa using List.find?_some h⟩

namespace Redrives

variable {σ σ' : Redrives} {conn : Nat} {o : OpenRedrive} {events events' : List Event}

structure Sound (σ : Redrives) : Prop where
  rows : σ.rows.Pairwise Redrive.Separate
  each : ∀ conn o, σ.running.get? conn = some o → o.Sound σ.rows
  apart : ∀ conn conn' o o', σ.running.get? conn = some o → σ.running.get? conn' = some o' → conn ≠ conn' → o.Apart o'

theorem initial_sound (db : Db) : (initial db).Sound where
  rows := .nil
  each := fun _ _ h => by cases h
  apart := fun _ _ _ _ h => by cases h

theorem Sound.set (h : σ.Sound) (ho : o.Sound σ.rows)
    (hothers : ∀ conn' o', σ.running.get? conn' = some o' → conn' ≠ conn → o.Apart o') :
    (σ.set conn o).Sound where
  rows := h.rows
  each conn' o' h' := by
    rcases Table.get?_put_cases h' with ⟨-, rfl⟩ | ⟨-, h'⟩
    · exact ho
    · exact h.each conn' o' h'
  apart i j p q hp hq hne := by
    simp only [Redrives.set, Table.get?_put] at hp hq
    split at hp
    · cases hp
      subst i
      rw [if_neg hne.symm] at hq
      exact hothers j q hq hne.symm
    · rename_i hi
      split at hq
      · cases hq
        exact (hothers i p hp hi).symm
      · exact h.apart i j p q hp hq hne

theorem Sound.close (h : σ.Sound) : (σ.close conn).Sound where
  rows := h.rows
  each conn' o' h' := by
    obtain ⟨-, h'⟩ := Table.get?_erase_eq_some h'
    exact h.each conn' o' h'
  apart i j p q hp hq hne := by
    simp only [Redrives.close, Table.get?_erase] at hp hq
    split at hp
    · cases hp
    · split at hq
      · cases hq
      · exact h.apart i j p q hp hq hne

theorem Sound.commit (h : σ.Sound) (hconn : σ.running.get? conn = some o) (db : Db) :
    Sound ⟨db, σ.rows ++ o.rows, σ.running.erase conn⟩ where
  rows := List.pairwise_append.mpr ⟨h.rows, (h.each conn o hconn).separate, (h.each conn o hconn).fresh⟩
  each conn' o' h' := by
    obtain ⟨hne, h'⟩ := Table.get?_erase_eq_some h'
    have ho := h.each conn o hconn
    have ho' := h.each conn' o' h'
    have hapart := h.apart conn conn' o o' hconn h' (Ne.symm hne)
    have hkeys {e : Redrive} (he : e ∈ o.rows) {k : TaskId × String} (hk : k ∈ o'.held) : e.key ≠ k := by
      rintro rfl
      exact hapart.1 _ (ho.held e he) hk
    refine ⟨ho'.held, fun e he e' he' => ?_, ho'.separate, fun hm => ?_⟩
    · rcases List.mem_append.mp he with he | he
      · exact ho'.fresh e he e' he'
      · exact ⟨hkeys he (ho'.held e' he'), hapart.2 e he e' he'⟩
    · obtain ⟨c, cs, htodo, hheld, hfree⟩ := ho'.missed hm
      refine ⟨c, cs, htodo, hheld, fun e he => ?_⟩
      simp only [List.mem_append] at he hfree
      rcases he with (he | he) | he
      · exact hfree e (.inl he)
      · exact hkeys he hheld
      · exact hfree e (.inr he)
  apart i j p q hp hq hne := by
    rw [Table.get?_erase] at hp hq
    split at hp
    · cases hp
    · split at hq
      · cases hq
      · exact h.apart i j p q hp hq hne

theorem Sound.create {c : RedriveCall} {cs : List RedriveCall} {db : Db} {now : Time} {target : TaskId}
    {sequence : Nat} {reply : RedriveReply} {copy : Option RedriveCopy} (h : σ.Sound)
    (hconn : σ.running.get? conn = some o) (hc : o.todo = c :: cs) (hmissed : o.missed = true)
    (htarget : ¬σ.Taken target) (hcreate : c.create db now target sequence = .ok (reply, copy)) :
    (σ.set conn { o with todo := cs, missed := false, copies := o.copies ++ copy.toList }).Sound := by
  have ho := h.each conn o hconn
  have hothers (conn' : Nat) (o' : OpenRedrive) (h' : σ.running.get? conn' = some o') (hne : conn' ≠ conn) :
      o.Apart o' := h.apart conn conn' o o' hconn h' hne.symm
  cases copy with
  | none =>
    refine h.set ⟨?_, ?_, ?_, fun h => absurd h Bool.false_ne_true⟩ ?_
    · simpa [OpenRedrive.rows] using ho.held
    · simpa [OpenRedrive.rows] using ho.fresh
    · simpa [OpenRedrive.rows] using ho.separate
    · simpa [OpenRedrive.Apart, OpenRedrive.rows] using hothers
  | some copy =>
    obtain ⟨hkey, hcopy⟩ := RedriveCall.create_row hcreate
    obtain ⟨c', cs', htodo, hheld, hfree⟩ := ho.missed hmissed
    cases hc.symm.trans htodo
    have hrows : OpenRedrive.rows { o with
        todo := cs, missed := false, copies := o.copies ++ (some copy).toList } = o.rows ++ [copy.redrive] := by
      simp [OpenRedrive.rows]
    have hnew {e : Redrive} (he : e ∈ σ.rows ∨ e ∈ o.rows) : e.Separate copy.redrive := by
      refine ⟨fun heq => hfree e (List.mem_append.mpr he) (heq.trans hkey), fun heq => htarget ?_⟩
      rw [hcopy] at heq
      rcases he with he | he
      · exact .inl ⟨e, he, heq⟩
      · exact .inr ⟨conn, o, hconn, e, he, heq⟩
    refine h.set ⟨fun e he => ?_, fun e he e' he' => ?_, ?_, fun h => absurd h Bool.false_ne_true⟩
      fun conn' o' h' hne => ⟨(hothers conn' o' h' hne).1, fun e he e' he' => ?_⟩
    · rw [hrows] at he
      rcases List.mem_append.mp he with he | he
      · exact ho.held e he
      · rw [List.mem_singleton.mp he, hkey]
        exact hheld
    · rw [hrows] at he'
      rcases List.mem_append.mp he' with he' | he'
      · exact ho.fresh e he e' he'
      · rw [List.mem_singleton.mp he']
        exact hnew (.inl he)
    · rw [hrows]
      refine List.pairwise_append.mpr ⟨ho.separate, List.pairwise_singleton _ _, fun e he e' he' => ?_⟩
      rw [List.mem_singleton.mp he']
      exact hnew (.inr he)
    · rw [hrows] at he
      rcases List.mem_append.mp he with he | he
      · exact (hothers conn' o' h' hne).2 e he e' he'
      · rw [List.mem_singleton.mp he, hcopy]
        exact fun heq => htarget (.inr ⟨conn', o', h', e', he', heq.symm⟩)

theorem Sound.other (h : σ.Sound) (db : Db) (keep : Redrive → Bool) :
    Sound { σ with db := db, rows := σ.rows.filter keep } where
  rows := h.rows.filter _
  each conn o ho := (h.each conn o ho).mono (List.filter_subset_self _)
  apart := h.apart

theorem Step.sound (hs : Step σ events σ') (h : σ.Sound) : σ'.Sound := by
  cases hs with
  | redrive => exact h.set (.opened _ _) fun _ o' _ _ => .opened _ o'
  | redriveMany => exact h.set (.opened _ _) fun _ o' _ _ => .opened _ o'
  | lock hconn hc hfree =>
    rename_i conn o c cs
    have ho := h.each conn o hconn
    refine h.set ⟨fun e he => List.mem_cons_of_mem _ (ho.held e he), ho.fresh, ho.separate, fun hm => ?_⟩
      fun conn' o' h' hne => ⟨fun k hk => ?_, (h.apart conn conn' o o' hconn h' hne.symm).2⟩
    · obtain ⟨c', cs', htodo, hheld, hrows⟩ := ho.missed hm
      exact ⟨c', cs', htodo, List.mem_cons_of_mem _ hheld, hrows⟩
    · rcases List.mem_cons.mp hk with rfl | hk
      · exact hfree conn' o' h' hne
      · exact (h.apart conn conn' o o' hconn h' hne.symm).1 k hk
  | replay hconn hc hheld he hreply =>
    rename_i conn o c cs e reply
    have ho := h.each conn o hconn
    refine h.set ⟨ho.held, ho.fresh, ho.separate, fun hm => ?_⟩ fun conn' o' h' hne =>
      h.apart conn conn' o o' hconn h' hne.symm
    -- A call that missed finds no row.
    obtain ⟨c', cs', htodo, -, hrows⟩ := ho.missed hm
    cases hc.symm.trans htodo
    obtain ⟨hmem, hkey⟩ := RedriveCall.existing_eq_some he
    exact absurd hkey (hrows e hmem)
  | conflict => exact h.close
  | miss hconn hc hheld he =>
    rename_i conn o c cs
    have ho := h.each conn o hconn
    exact h.set ⟨ho.held, ho.fresh, ho.separate, fun _ => ⟨c, cs, hc, hheld,
      RedriveCall.existing_eq_none he⟩⟩ fun conn' o' h' hne => h.apart conn conn' o o' hconn h' hne.symm
  | create hconn hc hmissed htarget hcreate => exact h.create hconn hc hmissed htarget.1 hcreate
  | refuse => exact h.close
  | commit hconn => exact h.commit hconn _
  | abort => exact h.close
  | other => exact h.other _ _

theorem Run.sound (hrun : Run σ events σ') (h : σ.Sound) : σ'.Sound := by
  induction hrun with
  | refl => exact h
  | tail _ hs ih => exact hs.sound ih

/-! ## Later calls -/

def Repeats (e : Redrive) (c : RedriveCall) (outcome : Except RedriveFault RedriveReply) : Prop :=
  if c.requestedBy = e.requestedBy ∧ c.reason = e.reason then
    ∃ reply, outcome = .ok reply ∧ reply.status = .replayed ∧ reply.target = some e.target
  else outcome = .error (.conflict e.target (c.conflictingFields e))

theorem repeats_replay {c : RedriveCall} (db : Db) (e : Redrive) : Repeats e c (c.replay db e) := by
  unfold Repeats RedriveCall.replay
  by_cases h : c.requestedBy = e.requestedBy ∧ c.reason = e.reason
  · have hnone : c.conflictingFields e = [] := by simp [RedriveCall.conflictingFields, h.1, h.2]
    rw [if_pos h, if_neg (not_not.mpr hnone)]
    exact ⟨_, rfl, rfl, rfl⟩
  · have hsome : c.conflictingFields e ≠ [] := by
      simp only [RedriveCall.conflictingFields, ne_eq, List.append_eq_nil_iff, ite_eq_right_iff]
      intro hfields
      refine h ⟨?_, ?_⟩
      · by_contra hne
        cases hfields.2 (Ne.symm hne)
      · by_contra hne
        cases hfields.1 (Ne.symm hne)
    rw [if_neg h, if_pos hsome]

theorem Sound.keys (h : σ.Sound) : (σ.rows.map Redrive.key).Nodup := List.pairwise_map.mpr (h.rows.imp fun h => h.1)

theorem Sound.targets (h : σ.Sound) : (σ.rows.map Redrive.target).Nodup :=
  List.pairwise_map.mpr (h.rows.imp fun h => h.2)

theorem Sound.existing (h : σ.Sound) (hconn : σ.running.get? conn = some o) {c : RedriveCall} {e e' : Redrive}
    (he : e ∈ σ.rows) (hkey : c.key = e.key) (he' : c.existing (σ.view o).2 = some e') : e' = e := by
  obtain ⟨hmem, hkey'⟩ := RedriveCall.existing_eq_some he'
  rcases List.mem_append.mp hmem with hmem | hmem
  · exact List.inj_on_of_nodup_map h.keys hmem he (hkey'.trans hkey)
  · exact absurd (hkey.symm.trans hkey'.symm) ((h.each conn o hconn).fresh e he e' hmem).1

theorem Step.repeats {c : RedriveCall} {outcome : Except RedriveFault RedriveReply} (hs : Step σ events σ')
    (h : σ.Sound) (hc : .answered c outcome ∈ events) {e : Redrive} (he : e ∈ σ.rows) (hkey : c.key = e.key) :
    Repeats e c outcome := by
  -- A call that missed holds the lock of a key without a row.
  have hmiss {conn : Nat} {o : OpenRedrive} {c : RedriveCall} {cs : List RedriveCall}
      (hconn : σ.running.get? conn = some o) (hc : o.todo = c :: cs) (hm : o.missed = true) :
      c.key ≠ e.key := by
    obtain ⟨c', cs', htodo, -, hrows⟩ := (h.each conn o hconn).missed hm
    cases hc.symm.trans htodo
    exact (hrows e (List.mem_append_left _ he)).symm
  cases hs with
  | replay hconn _ _ hexisting hreply =>
    cases List.mem_singleton.mp hc
    obtain rfl := h.existing hconn he hkey hexisting
    exact hreply ▸ repeats_replay _ _
  | conflict hconn _ _ hexisting hreply =>
    cases List.mem_singleton.mp hc
    obtain rfl := h.existing hconn he hkey hexisting
    exact hreply ▸ repeats_replay _ _
  | create hconn htodo hm =>
    cases List.mem_singleton.mp hc
    exact absurd hkey (hmiss hconn htodo hm)
  | refuse hconn htodo hm =>
    cases List.mem_singleton.mp hc
    exact absurd hkey (hmiss hconn htodo hm)
  | other => simp at hc
  | _ => exact absurd hc List.not_mem_nil

theorem Step.rows (hs : Step σ events σ') {e : Redrive} (he : e ∈ σ.rows) (hkept : .deleted e.target ∉ events) :
    e ∈ σ'.rows := by
  cases hs with
  | commit => exact List.mem_append_left _ he
  | other db =>
    refine List.mem_filter.mpr ⟨he, ?_⟩
    by_contra hgone
    exact hkept (List.mem_map.mpr ⟨e, List.mem_filter.mpr ⟨he, by simpa using hgone⟩, rfl⟩)
  | _ => exact he

theorem Run.repeats (hrun : Run σ events σ') (h : σ.Sound) {e : Redrive} (he : e ∈ σ.rows)
    (hkept : .deleted e.target ∉ events) :
    e ∈ σ'.rows ∧ ∀ c outcome, .answered c outcome ∈ events → c.key = e.key → Repeats e c outcome := by
  induction hrun with
  | refl => exact ⟨he, fun _ _ h => absurd h List.not_mem_nil⟩
  | tail hrun hs ih =>
    rw [List.mem_append, not_or] at hkept
    obtain ⟨he', hbefore⟩ := ih hkept.1
    refine ⟨hs.rows he' hkept.2, fun c outcome hc hkey => ?_⟩
    rcases List.mem_append.mp hc with hc | hc
    · exact hbefore c outcome hc hkey
    · exact hs.repeats (hrun.sound h) hc he' hkey

end Redrives

/-! ## Lineage -/

section Lineage

variable {rows : List Redrive} {task v w : TaskId} {limit : Nat} {e : Redrive}

def Linked (rows : List Redrive) (v w : TaskId) : Prop :=
  ∃ e ∈ rows, (e.source = v ∧ e.target = w) ∨ (e.target = v ∧ e.source = w)

def redriveComponent (rows : List Redrive) (task : TaskId) : Set Redrive :=
  {e | e ∈ rows ∧ Relation.ReflTransGen (Linked rows) task e.source}

theorem mem_edges : e ∈ (redriveGraph rows).edges ↔ e ∈ rows := List.mem_insertionSort _

theorem adjacent_iff : (redriveGraph rows).Adjacent v w ↔ Linked rows v w := by
  constructor
  · rintro ⟨e, he, hinc, rfl⟩
    exact ⟨e, mem_edges.mp he, EdgeWalk.Graph.ends_of_incident hinc⟩
  · rintro ⟨e, he, ⟨hs, ht⟩ | ⟨ht, hs⟩⟩
    · refine ⟨e, mem_edges.mpr he, EdgeWalk.Graph.incident_iff.mpr (.inl hs), ?_⟩
      change (if e.source = v then e.target else e.source) = w
      rw [if_pos hs, ht]
    · refine ⟨e, mem_edges.mpr he, EdgeWalk.Graph.incident_iff.mpr (.inr ht), ?_⟩
      change (if e.source = v then e.target else e.source) = w
      split
      · rename_i hv
        rw [ht, ← hv, hs]
      · exact hs

theorem component_iff : (redriveGraph rows).Component task e ↔ e ∈ redriveComponent rows task := by
  have hadjacent : (redriveGraph rows).Adjacent = Linked rows := by
    funext v w
    exact propext adjacent_iff
  unfold EdgeWalk.Graph.Component EdgeWalk.Graph.Connected redriveComponent
  rw [hadjacent, mem_edges]
  rfl

theorem nodup_edge_keys (htargets : (rows.map Redrive.target).Nodup) :
    ((redriveGraph rows).edges.map (redriveGraph rows).key).Nodup :=
  ((List.perm_insertionSort _ rows).map Redrive.target).nodup_iff.mpr htargets

theorem find?_target (htargets : (rows.map Redrive.target).Nodup) (he : e ∈ rows) :
    rows.find? (fun e' => e'.target = e.target) = some e := by
  cases hfind : rows.find? fun e' => e'.target = e.target with
  | none => exact absurd (List.find?_eq_none.mp hfind e he) (by simp)
  | some e' =>
    have htarget : e'.target = e.target := by simpa using List.find?_some hfind
    rw [List.inj_on_of_nodup_map htargets (List.mem_of_find?_eq_some hfind) he htarget]

/-- What the lineage returns, for rows with distinct targets. -/
theorem redriveLineage_spec (htargets : (rows.map Redrive.target).Nodup) (hlow : 1 ≤ limit)
    (hhigh : limit ≤ 1001) : ∃ es, redriveLineage rows task limit = .ok es ∧ es.Nodup ∧
      (∀ e ∈ es, e ∈ redriveComponent rows task) ∧
      ((redriveComponent rows task).ncard < limit → ∀ e ∈ redriveComponent rows task, e ∈ es) := by
  have hkeys := nodup_edge_keys htargets
  refine ⟨_, if_neg (by omega), ?_, fun e he => ?_, fun hfew e he => ?_⟩
  · refine (EdgeWalk.Graph.nodup_collected hkeys).filterMap fun t t' e he he' => ?_
    have ht : e.target = t := by simpa using List.find?_some he
    have ht' : e.target = t' := by simpa using List.find?_some he'
    exact ht.symm.trans ht'
  · obtain ⟨t, ht, hfind⟩ := List.mem_filterMap.mp he
    obtain ⟨e', he', hkey⟩ := EdgeWalk.Graph.component_of_mem_collected hkeys ht
    have htarget : e'.target = t := hkey
    rw [← htarget, find?_target htargets (mem_edges.mp he'.1)] at hfind
    cases hfind
    exact component_iff.mp he'
  · have hfinite : (redriveComponent rows task).Finite := (List.finite_toSet rows).subset fun e he => he.1
    have hlength : hfinite.toFinset.toList.length < limit := by
      rw [Finset.length_toList, ← Set.ncard_eq_toFinset_card _ hfinite]
      exact hfew
    refine List.mem_filterMap.mpr ⟨e.target, ?_, find?_target htargets he.1⟩
    refine EdgeWalk.Graph.mem_collected hkeys (fun e he => ?_) hlength (component_iff.mpr he)
    simpa using component_iff.mp he

/-- The loop of the lineage has ended: nothing is left to look at, or the limit is reached. -/
theorem redriveLineage_stops (htargets : (rows.map Redrive.target).Nodup) (task : TaskId) (limit : Nat) :
    ((redriveGraph rows).walk limit ((redriveGraph rows).edges.length + 1)
      (EdgeWalk.Graph.start task)).frontier = [] ∨
      limit ≤ ((redriveGraph rows).collected limit task).length :=
  (EdgeWalk.Graph.walk_start (nodup_edge_keys htargets) limit task).2.2.2

end Lineage

/-! ## The result -/

/-- In every run each source and request id has at most one target. Until that target is deleted, later
calls with the same attribution return it and others are rejected with it. The lineage of the rows stops and
returns each edge once, only edges of the component, and all of them if they are fewer than the limit. -/
theorem redrive_exactly_once {db : Db} {events : List Redrives.Event} {σ : Redrives}
    (hrun : Redrives.Run (.initial db) events σ) :
    (σ.rows.map Redrive.key).Nodup ∧
    (∀ e ∈ σ.rows, ∀ events' σ', Redrives.Run σ events' σ' → .deleted e.target ∉ events' →
      e ∈ σ'.rows ∧ ∀ c outcome, .answered c outcome ∈ events' → c.key = e.key → Redrives.Repeats e c outcome) ∧
    ∀ task limit, 1 ≤ limit → limit ≤ 1001 → (((redriveGraph σ.rows).walk limit ((redriveGraph σ.rows).edges.length + 1)
          (EdgeWalk.Graph.start task)).frontier = [] ∨
        limit ≤ ((redriveGraph σ.rows).collected limit task).length) ∧
      ∃ es, redriveLineage σ.rows task limit = .ok es ∧ es.Nodup ∧ (∀ e ∈ es, e ∈ redriveComponent σ.rows task) ∧
        ((redriveComponent σ.rows task).ncard < limit → ∀ e ∈ redriveComponent σ.rows task, e ∈ es) := by
  have hsound := hrun.sound (Redrives.initial_sound db)
  refine ⟨hsound.keys, fun e he events' σ' hrun' hkept => hrun'.repeats hsound he hkept, ?_⟩
  intro task limit hlow hhigh
  exact ⟨redriveLineage_stops hsound.targets task limit, redriveLineage_spec hsound.targets hlow hhigh⟩

/-! ## Three calls -/

def failedTask : Task :=
  ⟨"default", "report", none, .null, none, 1048576, 1048576, [], [], 25, none, none, none, 0, none⟩

def failedDb : Db :=
  { Db.empty with
    tasks := Table.empty.put 1 failedTask
    outcomes := Table.empty.put 1 ⟨.failed, 1, 1, 0, none, none, 0⟩ }

def firstRedrive : RedriveCall := ⟨1, "operator", "fixed upstream", "request"⟩

def secondRedrive : RedriveCall := { firstRedrive with reason := "again" }

def firstRow : Redrive := ⟨1, 2, "request", "operator", "fixed upstream", 1⟩

def firstReply : RedriveReply := ⟨.redriven, 1, some 2, some (.outcome .failed), some (.runtime .ready), some 1⟩

namespace Redrives

variable {db : Db}

/-- One call alone, with the lock of its key. -/
def locked (db : Db) (rows : List Redrive) (c : RedriveCall) : Redrives :=
  set (set ⟨db, rows, .empty⟩ 0 ⟨[c], [], false, []⟩) 0 ⟨[c], [c.key], false, []⟩

theorem lock_run {rows : List Redrive} {c : RedriveCall} (hcheck : c.check = .ok ()) :
    Run ⟨db, rows, .empty⟩ [] (locked db rows c) := by
  refine ((Run.refl _).tail (.redrive rfl hcheck)).tail (.lock (o := ⟨[c], [], false, []⟩) rfl rfl ?_)
  intro conn' o' h hne
  simp [set, hne] at h

theorem firstRedrive_run :
    ∃ db, Run (initial failedDb) [.answered firstRedrive (.ok firstReply)] ⟨db, [firstRow], .empty⟩ := by
  let σ₂ : Redrives := locked failedDb [] firstRedrive
  let σ₃ : Redrives := σ₂.set 0 ⟨[firstRedrive], [firstRedrive.key], true, []⟩
  let copy : RedriveCopy := ⟨firstRow, failedTask, false, 1⟩
  let o : OpenRedrive := ⟨[], [firstRedrive.key], false, [copy]⟩
  have hlock : Run (initial failedDb) [] σ₂ := lock_run rfl
  have hmiss : Step σ₂ [] σ₃ :=
    .miss (o := ⟨[firstRedrive], [firstRedrive.key], false, []⟩) rfl rfl List.mem_cons_self rfl
  have hcopy : firstRedrive.create failedDb 1 2 1 = .ok (firstReply, some copy) := rfl
  have htaken : ¬σ₃.Taken 2 := by
    rintro (⟨e, he, -⟩ | ⟨conn, o, ho, e, he, -⟩)
    · exact absurd he List.not_mem_nil
    · simp only [σ₃, σ₂, locked, set, Table.get?_put] at ho
      split at ho
      · cases ho
        exact absurd he List.not_mem_nil
      · simp [*] at ho
  have hcreate : Step σ₃ [.answered firstRedrive (.ok firstReply)] (σ₃.set 0 o) :=
    .create (o := ⟨[firstRedrive], [firstRedrive.key], true, []⟩) rfl rfl rfl ⟨htaken, by decide⟩ hcopy
  have hcommit : Step (σ₃.set 0 o) [] ⟨_, _, (σ₃.set 0 o).running.erase 0⟩ := .commit (o := o) rfl rfl
  exact ⟨_, ((hlock.tail hmiss).tail hcreate).tail hcommit⟩

theorem replay_run (db : Db) : ∃ reply,
    Run ⟨db, [firstRow], .empty⟩ [.answered firstRedrive (.ok reply)] ⟨db, [firstRow], .empty⟩ := by
  obtain ⟨reply, hreply⟩ : ∃ reply, firstRedrive.replay db firstRow = .ok reply := ⟨_, rfl⟩
  let σ₂ : Redrives := locked db [firstRow] firstRedrive
  let o : OpenRedrive := ⟨[], [firstRedrive.key], false, []⟩
  have hreplay : Step σ₂ [.answered firstRedrive (.ok reply)] (σ₂.set 0 o) :=
    .replay (o := ⟨[firstRedrive], [firstRedrive.key], false, []⟩) rfl rfl List.mem_cons_self rfl hreply
  have hcommit : Step (σ₂.set 0 o) [] ⟨db, [firstRow], (σ₂.set 0 o).running.erase 0⟩ := .commit (o := o) rfl rfl
  exact ⟨reply, ((lock_run rfl).tail hreplay).tail hcommit⟩

theorem conflict_run : Run ⟨db, [firstRow], .empty⟩
    [.answered secondRedrive (.error (.conflict 2 ["reason"]))] ⟨db, [firstRow], .empty⟩ := by
  have hconflict : Step (locked db [firstRow] secondRedrive)
      [.answered secondRedrive (.error (.conflict 2 ["reason"]))] ((locked db [firstRow] secondRedrive).close 0) :=
    .conflict (o := ⟨[secondRedrive], [secondRedrive.key], false, []⟩) (e := firstRow) rfl rfl
      List.mem_cons_self rfl rfl
  exact (lock_run rfl).tail hconflict

theorem Run.trans {σ σ' σ'' : Redrives} {events events' : List Event} (h : Run σ events σ')
    (h' : Run σ' events' σ'') : Run σ (events ++ events') σ'' := by
  induction h' with
  | refl => simpa using h
  | tail _ hs ih =>
    rw [← List.append_assoc]
    exact ih.tail hs

end Redrives

/-- A later call with the source and the request id of an earlier one does not return its target. -/
theorem redrive_conflict_not_replayed : firstRedrive.key = secondRedrive.key ∧ ∃ σ, Redrives.Run (.initial failedDb)
      [.answered firstRedrive (.ok firstReply), .answered secondRedrive (.error (.conflict 2 ["reason"]))] σ ∧
    σ.rows = [firstRow] := by
  obtain ⟨db, hrun⟩ := Redrives.firstRedrive_run
  exact ⟨rfl, _, hrun.trans Redrives.conflict_run, rfl⟩

/-- The first call, the same call again, which returns the target of the first, and one with another reason,
which is rejected with it. The lineage after the three is the row of the first. -/
theorem redrive_exactly_once_firstRedrive : ∃ (σ σ' : Redrives) (reply : RedriveReply),
    Redrives.Run (.initial failedDb) [.answered firstRedrive (.ok firstReply)] σ ∧
    Redrives.Run σ [.answered firstRedrive (.ok reply),
      .answered secondRedrive (.error (.conflict 2 ["reason"]))] σ' ∧
    reply.status = .replayed ∧ reply.target = some 2 ∧ firstRow ∈ σ'.rows ∧
    ∃ es, redriveLineage σ'.rows 1 1001 = .ok es ∧ es.Nodup := by
  obtain ⟨db, hrun⟩ := Redrives.firstRedrive_run
  obtain ⟨reply, hreplay⟩ := Redrives.replay_run db
  have hlater := hreplay.trans Redrives.conflict_run
  obtain ⟨hstays, hrepeats⟩ := (redrive_exactly_once hrun).2.1 firstRow List.mem_cons_self _ _ hlater (by simp)
  obtain ⟨_, ⟨⟩, hstatus, htarget⟩ := hrepeats firstRedrive (.ok reply) (by simp) rfl
  obtain ⟨es, hes, hnodup, -⟩ := ((redrive_exactly_once (hrun.trans hlater)).2.2 1 1001 (by decide) (by decide)).2
  exact ⟨_, _, reply, hrun, hlater, hstatus, htarget, hstays, es, hes, hnodup⟩

end Workhorse
