import Workhorse.Dependency.Lemmas.Resolves

/-!
# What a cascade does

When tasks end, the trigger resolves the edges that leave them and settles dependents, which may end in turn.
`Cascade` says what such a run does to rows, outcomes and edges, whatever the counters of the rows say. It holds of a
run at any depth of the recursion.
-/

namespace Workhorse

namespace Db

/-- A task that has ended on the way from `a` to `b`: it is one of those that had just ended, or it had a row. -/
structure Ended (new : TaskId → Prop) (a b : Db) (id : TaskId) (o : Outcome) : Prop where
  before : new id ∨ ∃ r, a.runtime.get? id = some r
  gone : b.runtime.get? id = none
  outcome : b.outcomes.get? id = some o

/-- What becomes of an edge: a new terminal task releases its own pending edges, and a task that has ended resolves
the edges of blocked dependents that name it, by the action for its state. -/
inductive EdgeStep (new : TaskId → Prop) (a b : Db) (k : TaskId × TaskId) (d : Dependency) : Dependency → Prop
  | kept : EdgeStep new a b k d d
  | released (hp : d.pending = true) (h : new k.1) (now : Time) :
      EdgeStep new a b k d { d with resolved := some (now, .release) }
  | resolved (hp : d.pending = true) (hb : a.isBlocked k.1 = true) {o : Outcome} (h : Ended new a b k.2 o)
      (now : Time) :
      EdgeStep new a b k d { d with resolved := some (now, d.actionOn o.state) }

/-- A pending edge of a dependent that is not pending any more, since its prerequisite has ended. -/
structure Cleared (new : TaskId → Prop) (a b : Db) (id p : TaskId) (d : Dependency) : Prop where
  before : a.dependencies.get? (id, p) = some d ∧ d.pending = true
  after : ∀ d', b.dependencies.get? (id, p) = some d' → d'.pending = false
  ended : ∃ o, Ended new a b p o

/-- A blocked dependent that the run may count anew: one of the chosen, or one with an edge that the run has cleared. -/
structure Touched (new chosen : TaskId → Prop) (a b : Db) (id : TaskId) : Prop where
  blocked : ∃ r, a.runtime.get? id = some r ∧ r.state = .blocked
  cause : chosen id ∨ ∃ p d, Cleared new a b id p d

structure Ripe (new chosen : TaskId → Prop) (a b : Db) (id : TaskId) : Prop
    extends Touched new chosen a b id where
  settled : ∀ p d, b.dependencies.get? (id, p) = some d → d.pending = false

inductive RowStep (new chosen : TaskId → Prop) (a b : Db) (id : TaskId) (r : Runtime) : Option Runtime → Prop
  | kept : RowStep new chosen a b id r (some r)
  | counted (h : Touched new chosen a b id) (pending : Nat) (rejected : Bool) :
      RowStep new chosen a b id r (some { r with pendingPrerequisites := pending, dependencyRejected := rejected })
  | released (h : Ripe new chosen a b id) (now : Time) (sequence : Nat) :
      RowStep new chosen a b id r (some (r.dependencyReleased now sequence))
  | closed (h : Ripe new chosen a b id) {o : Outcome} (ho : b.outcomes.get? id = some o) :
      RowStep new chosen a b id r none

/-- A run that starts with some tasks just ended and some dependents chosen to be settled. -/
structure Cascade (new chosen : TaskId → Prop) (a b : Db) : Prop where
  absent : ∀ id, a.runtime.get? id = none → b.runtime.get? id = none ∧ b.outcomes.get? id = a.outcomes.get? id
  row : ∀ id r, a.runtime.get? id = some r → RowStep new chosen a b id r (b.runtime.get? id)
  outcome : ∀ id r, b.runtime.get? id = some r → b.outcomes.get? id = a.outcomes.get? id
  edge : ∀ k d, a.dependencies.get? k = some d → ∃ d', b.dependencies.get? k = some d' ∧ EdgeStep new a b k d d'
  noEdge : ∀ k, a.dependencies.get? k = none → b.dependencies.get? k = none

/-- Tasks that have ended stay so, no task gets blocked, and edges are only resolved. -/
structure Onward (a b : Db) : Prop where
  absent : ∀ id, a.runtime.get? id = none → b.runtime.get? id = none ∧ b.outcomes.get? id = a.outcomes.get? id
  blocked : ∀ id, b.isBlocked id = true → a.isBlocked id = true
  pending : ∀ k d, b.dependencies.get? k = some d → d.pending = true → a.dependencies.get? k = some d

variable {new chosen later : TaskId → Prop} {a b b' c : Db} {id : TaskId} {k : TaskId × TaskId} {o : Outcome}
  {d d' d'' : Dependency} {r : Runtime}

namespace Onward

theorem refl (a : Db) : a.Onward a := ⟨fun _ h => ⟨h, rfl⟩, fun _ h => h, fun _ _ h _ => h⟩

theorem trans (h : a.Onward b) (h' : b.Onward c) : a.Onward c where
  absent id hid := by
    obtain ⟨hb, ho⟩ := h.absent id hid
    obtain ⟨hc, ho'⟩ := h'.absent id hb
    exact ⟨hc, ho'.trans ho⟩
  blocked id hid := h.blocked id (h'.blocked id hid)
  pending k d hd hp := h.pending k d (h'.pending k d hd hp) hp

end Onward

namespace Ended

theorem onward (h : Ended new a b id o) (hbc : b.Onward c) : Ended new a c id o := by
  obtain ⟨hgone, hout⟩ := hbc.absent id h.gone
  exact ⟨h.before, hgone, hout.trans h.outcome⟩

theorem of_later (h : Ended later b c id o) (hab : a.Onward b)
    (hlater : ∀ id, later id → new id ∨ ∃ r, a.runtime.get? id = some r) : Ended new a c id o where
  before := by
    rcases h.before with hl | ⟨r, hr⟩
    · exact hlater id hl
    · cases ha : a.runtime.get? id with
      | some r' => exact .inr ⟨r', rfl⟩
      | none =>
        rw [(hab.absent id ha).1] at hr
        cases hr
  gone := h.gone
  outcome := h.outcome

end Ended

theorem Onward.cleared (h : b.Onward c) (hb : ∀ d, b.dependencies.get? k = some d → d.pending = false)
    (hd : c.dependencies.get? k = some d) : d.pending = false := by
  cases hp : d.pending with
  | false => rfl
  | true =>
    rw [hb d (h.pending k d hd hp)] at hp
    cases hp

theorem Cleared.onward {p : TaskId} (h : Cleared new a b id p d) (hbc : b.Onward c) : Cleared new a c id p d where
  before := h.before
  after _ hd' := hbc.cleared h.after hd'
  ended := by
    obtain ⟨o, ho⟩ := h.ended
    exact ⟨o, ho.onward hbc⟩

theorem Touched.onward (h : Touched new chosen a b id) (hbc : b.Onward c) : Touched new chosen a c id where
  blocked := h.blocked
  cause := by
    rcases h.cause with hc | ⟨p, d, hcleared⟩
    · exact .inl hc
    · exact .inr ⟨p, d, hcleared.onward hbc⟩

theorem Ripe.onward (h : Ripe new chosen a b id) (hbc : b.Onward c) : Ripe new chosen a c id where
  toTouched := h.toTouched.onward hbc
  settled p _ hd := hbc.cleared (h.settled p) hd

namespace EdgeStep

theorem pending (h : EdgeStep new a b k d d') (hp : d'.pending = true) : d' = d := by
  cases h with
  | kept => rfl
  | released | resolved => cases hp

theorem onward (h : EdgeStep new a b k d d') (hbc : b.Onward c) : EdgeStep new a c k d d' := by
  cases h with
  | kept => exact .kept
  | released hp h now => exact .released hp h now
  | resolved hp hb h now => exact .resolved hp hb (h.onward hbc) now

end EdgeStep

namespace Cascade

theorem refl (a : Db) : Cascade new chosen a a where
  absent _ h := ⟨h, rfl⟩
  row _ _ h := h ▸ .kept
  outcome _ _ _ := rfl
  edge _ d h := ⟨d, h, .kept⟩
  noEdge _ h := h

theorem row_of_blocked (h : Cascade new chosen a b) (ha : a.runtime.get? id = some r) {r' : Runtime}
    (hb : b.runtime.get? id = some r') (hs : r'.state = .blocked) :
    r.state = .blocked ∧ ∃ pending rejected,
      r' = { r with pendingPrerequisites := pending, dependencyRejected := rejected } := by
  have hrow := h.row id r ha
  rw [hb] at hrow
  cases hrow with
  | kept => exact ⟨hs, r.pendingPrerequisites, r.dependencyRejected, rfl⟩
  | counted _ pending rejected => exact ⟨hs, pending, rejected, rfl⟩
  | released _ now sequence =>
    rcases r.dependencyReleased_state now sequence with h | h <;> rw [h] at hs <;> cases hs

theorem exists_row (h : Cascade new chosen a b) (hb : b.runtime.get? id = some r) :
    ∃ r₀, a.runtime.get? id = some r₀ := by
  cases ha : a.runtime.get? id with
  | some r₀ => exact ⟨r₀, rfl⟩
  | none =>
    rw [(h.absent id ha).1] at hb
    cases hb

theorem onward (h : Cascade new chosen a b) : a.Onward b where
  absent := h.absent
  blocked id hid := by
    obtain ⟨r', hr', hs⟩ := isBlocked_iff.mp hid
    obtain ⟨r, hr⟩ := h.exists_row hr'
    exact isBlocked_iff.mpr ⟨r, hr, (h.row_of_blocked hr hr' hs).1⟩
  pending k d hd hp := by
    cases ha : a.dependencies.get? k with
    | none =>
      rw [h.noEdge k ha] at hd
      cases hd
    | some d₀ =>
      obtain ⟨d', hd', hstep⟩ := h.edge k d₀ ha
      rw [hd] at hd'
      cases hd'
      rw [hstep.pending hp]

theorem ripe (h : Touched new chosen a b id) (hzero : b.pendingEdges id = 0) : Ripe new chosen a b id where
  toTouched := h
  settled p d hd := by
    have := Table.count_eq_zero_iff.mp hzero _ _ hd
    simpa using this

end Cascade

/-! ## Writes of a run -/

inductive Change (new chosen : TaskId → Prop) (a b b' : Db) (id : TaskId) : Prop
  | same (hr : b'.runtime.get? id = b.runtime.get? id) (ho : b'.outcomes.get? id = b.outcomes.get? id)
  | counted {r : Runtime} (hr : b.runtime.get? id = some r) (hs : r.state = .blocked)
      (h : Touched new chosen a b id) {pending : Nat} {rejected : Bool}
      (hr' : b'.runtime.get? id = some { r with pendingPrerequisites := pending, dependencyRejected := rejected })
      (ho : b'.outcomes.get? id = b.outcomes.get? id)
  | released {r : Runtime} (hr : b.runtime.get? id = some r) (hs : r.state = .blocked)
      (h : Ripe new chosen a b id) {now : Time} {sequence : Nat}
      (hr' : b'.runtime.get? id = some (r.dependencyReleased now sequence))
      (ho : b'.outcomes.get? id = b.outcomes.get? id)
  | closed {r : Runtime} (hr : b.runtime.get? id = some r) (h : Ripe new chosen a b id)
      (hr' : b'.runtime.get? id = none) {o : Outcome} (ho : b'.outcomes.get? id = some o)

structure Statement (new chosen : TaskId → Prop) (a b b' : Db) : Prop where
  edges : b'.dependencies = b.dependencies
  change : ∀ id, Change new chosen a b b' id

theorem Statement.onward (h : Statement new chosen a b b') : b.Onward b' where
  absent id hid := by
    cases h.change id with
    | same hr ho => exact ⟨hr.trans hid, ho⟩
    | counted hr | released hr | closed hr =>
      rw [hid] at hr
      cases hr
  blocked id hid := by
    obtain ⟨r', hr', hs'⟩ := isBlocked_iff.mp hid
    cases h.change id with
    | same hr => exact isBlocked_iff.mpr ⟨r', hr ▸ hr', hs'⟩
    | counted hr hs | released hr hs => exact isBlocked_iff.mpr ⟨_, hr, hs⟩
    | closed _ _ hnone =>
      rw [hnone] at hr'
      cases hr'
  pending k d hd _ := h.edges ▸ hd

theorem Statement.same (hr : b'.runtime = b.runtime) (ho : b'.outcomes = b.outcomes)
    (hd : b'.dependencies = b.dependencies) : Statement new chosen a b b' :=
  ⟨hd, fun _ => .same (by rw [hr]) (by rw [ho])⟩

namespace Cascade

theorem statement (h : Cascade new chosen a b) (hs : Statement new chosen a b b') : Cascade new chosen a b' where
  absent id hid := (h.onward.trans hs.onward).absent id hid
  outcome id r hr' := by
    cases hs.change id with
    | same hr ho => exact ho.trans (h.outcome id r (hr ▸ hr'))
    | counted hr _ _ _ ho => exact ho.trans (h.outcome id _ hr)
    | released hr _ _ _ ho => exact ho.trans (h.outcome id _ hr)
    | closed hr _ hnone =>
      rw [hnone] at hr'
      cases hr'
  edge k d hd := by
    obtain ⟨d', hd', hstep⟩ := h.edge k d hd
    exact ⟨d', hs.edges ▸ hd', hstep.onward hs.onward⟩
  noEdge k hk := hs.edges ▸ h.noEdge k hk
  row id r hr := by
    have hon := hs.onward
    cases hs.change id with
    | same hr' ho =>
      have hrow := h.row id r hr
      rw [hr']
      generalize hb : b.runtime.get? id = row at hrow
      cases hrow with
      | kept => exact .kept
      | counted ht pending rejected => exact .counted (ht.onward hon) pending rejected
      | released ht now sequence => exact .released (ht.onward hon) now sequence
      | closed ht hout => exact .closed (ht.onward hon) (ho.trans hout)
    | @counted r' hb hblocked ht pending rejected hr' _ =>
      obtain ⟨-, n, j, rfl⟩ := h.row_of_blocked hr hb hblocked
      rw [hr']
      exact .counted (ht.onward hon) pending rejected
    | @released r' hb hblocked ht now sequence hr' _ =>
      obtain ⟨-, n, j, rfl⟩ := h.row_of_blocked hr hb hblocked
      rw [hr']
      exact .released (r := r) (ht.onward hon) now sequence
    | closed _ ht hr' ho =>
      rw [hr']
      exact .closed (ht.onward hon) ho

theorem fires (h : Cascade new chosen a b) (h' : Cascade later (fun _ => False) b c)
    (hlater : ∀ id, later id → new id ∨ ∃ r, a.runtime.get? id = some r)
    (hfree : ∀ id p d, later id → b.dependencies.get? (id, p) = some d → d.pending = false) :
    Cascade new chosen a c where
  absent := (h.onward.trans h'.onward).absent
  outcome id r hr := by
    obtain ⟨r', hr'⟩ := h'.exists_row hr
    exact (h'.outcome id r hr).trans (h.outcome id r' hr')
  noEdge k hk := h'.noEdge k (h.noEdge k hk)
  edge k d hd := by
    obtain ⟨d', hd', hstep⟩ := h.edge k d hd
    obtain ⟨d'', hd'', hstep'⟩ := h'.edge k d' hd'
    refine ⟨d'', hd'', ?_⟩
    cases hstep' with
    | kept => exact hstep.onward h'.onward
    | released hp hl now =>
      have := hfree k.1 k.2 d' hl hd'
      simp_all
    | resolved hp hb ho now =>
      obtain rfl := hstep.pending hp
      exact .resolved hp (h.onward.blocked _ hb) (ho.of_later h.onward hlater) now
  row id r hr := by
    -- What the later part touches was touched by the whole run: an edge that is pending at `b` was so at `a`.
    have htouched (hb : ∃ r, a.runtime.get? id = some r ∧ r.state = .blocked)
        (ht : Touched later (fun _ => False) b c id) : Touched new chosen a c id := by
      refine ⟨hb, ?_⟩
      obtain hf | ⟨p, d, ⟨hd, hp⟩, hafter, o, ho⟩ := ht.cause
      · exact hf.elim
      · exact .inr ⟨p, d, ⟨h.onward.pending _ _ hd hp, hp⟩, hafter, o, ho.of_later h.onward hlater⟩
    have hrow := h.row id r hr
    cases hb : b.runtime.get? id with
    | none =>
      rw [hb] at hrow
      obtain ⟨hc, hout⟩ := h'.absent id hb
      cases hrow with
      | closed ht ho =>
        rw [hc]
        exact .closed (ht.onward h'.onward) (hout.trans ho)
    | some rb =>
      have hrow' := h'.row id rb hb
      rw [hb] at hrow
      generalize c.runtime.get? id = row at hrow'
      cases hrow' with
      | kept =>
        cases hrow with
        | kept => exact .kept
        | counted ht pending rejected => exact .counted (ht.onward h'.onward) pending rejected
        | released ht now sequence => exact .released (ht.onward h'.onward) now sequence
      | counted ht pending rejected =>
        obtain ⟨rb', hrb', hs⟩ := ht.blocked
        rw [hb] at hrb'
        cases hrb'
        obtain ⟨hs, n, j, rfl⟩ := h.row_of_blocked hr hb hs
        exact .counted (htouched ⟨r, hr, hs⟩ ht) pending rejected
      | released ht now sequence =>
        obtain ⟨rb', hrb', hs⟩ := ht.blocked
        rw [hb] at hrb'
        cases hrb'
        obtain ⟨hs, n, j, rfl⟩ := h.row_of_blocked hr hb hs
        exact .released (r := r) ⟨htouched ⟨r, hr, hs⟩ ht.toTouched, ht.settled⟩ now sequence
      | closed ht ho =>
        obtain ⟨rb', hrb', hs⟩ := ht.blocked
        rw [hb] at hrb'
        cases hrb'
        obtain ⟨hs, -⟩ := h.row_of_blocked hr hb hs
        exact .closed ⟨htouched ⟨r, hr, hs⟩ ht.toTouched, ht.settled⟩ ho

end Cascade

end Db

end Workhorse
