import Workhorse.Dependency.Lemmas.Resolves

/-!
# Invariants of the core

A task has one place, every live row keeps the constraints of its table, and a fence token is held by
at most one row. Each is kept by every move, hence by every sequence of moves.
-/

namespace Workhorse

open Relation

namespace Core

variable {o : Outcome}

def Holds (c : Core) : Tier → TaskId → Nat → Prop
  | .full, id, fence => ∃ r, c.runtime.get? id = some r ∧ r.state = .active ∧ r.fenceToken = fence
  | .fast, id, fence =>
    ∃ r, c.fastRuntime.get? id = some r ∧ r.state = .active ∧ r.fenceToken = fence

def places (c : Core) (id : TaskId) : Nat := (c.runtime.contains id).toNat + (c.outcomes.contains id).toNat +
    (c.fastRuntime.contains id).toNat + (c.fastOutcomes.contains id).toNat

structure Sound (c : Core) : Prop where
  placed : ∀ id, c.places id = (c.tasks.contains id).toNat
  valid : ∀ id r, c.runtime.get? id = some r → r.Valid
  fastValid : ∀ id r, c.fastRuntime.get? id = some r → r.shapeCheck = true
  drawn : ∀ tier id fence, c.Holds tier id fence → fence ≤ c.fenceSeq
  unique : ∀ tier tier' id id' fence, c.Holds tier id fence → c.Holds tier' id' fence → tier = tier' ∧ id = id'

end Core

variable {c c' : Core} {id k : TaskId} {tier : Tier} {fence : Nat}

/-! ## Tokens -/

/-- No row is active under a token after a change that was not before, apart from at most one row
that is active under the next token of the sequence. -/
structure Fences (c c' : Core) : Prop where
  mono : c.fenceSeq ≤ c'.fenceSeq
  held : (∀ tier id fence, c'.Holds tier id fence → c.Holds tier id fence) ∨
    ∃ tier₀ id₀, c'.fenceSeq = c.fenceSeq + 1 ∧ ∀ tier id fence, c'.Holds tier id fence →
      c.Holds tier id fence ∨ (tier = tier₀ ∧ id = id₀ ∧ fence = c.fenceSeq + 1)

theorem Fences.of_held (hseq : c'.fenceSeq = c.fenceSeq)
    (h : ∀ tier id fence, c'.Holds tier id fence → c.Holds tier id fence) : Fences c c' :=
  ⟨hseq.ge, .inl h⟩

theorem Core.Holds.of_setRuntime {r : Runtime} (h : (c.setRuntime id r).Holds tier k fence) :
    (tier = .full ∧ k = id ∧ r.state = .active ∧ r.fenceToken = fence) ∨ c.Holds tier k fence := by
  cases tier with
  | full =>
    obtain ⟨r', hr', hs, hf⟩ := h
    rcases Table.get?_put_cases hr' with ⟨hk, rfl⟩ | ⟨-, hr'⟩
    · exact .inl ⟨rfl, hk, hs, hf⟩
    · exact .inr ⟨r', hr', hs, hf⟩
  | fast => exact .inr h

theorem Core.Holds.of_setFast {r : FastRuntime} (h : (c.setFast id r).Holds tier k fence) :
    (tier = .fast ∧ k = id ∧ r.state = .active ∧ r.fenceToken = fence) ∨ c.Holds tier k fence := by
  cases tier with
  | full => exact .inr h
  | fast =>
    obtain ⟨r', hr', hs, hf⟩ := h
    rcases Table.get?_put_cases hr' with ⟨hk, rfl⟩ | ⟨-, hr'⟩
    · exact .inl ⟨rfl, hk, hs, hf⟩
    · exact .inr ⟨r', hr', hs, hf⟩

theorem Core.Holds.of_close (h : (c.close id o).Holds tier k fence) : c.Holds tier k fence := by
  cases tier with
  | full =>
    obtain ⟨r, hr, h⟩ := h
    obtain ⟨-, hr⟩ := Table.get?_erase_eq_some hr
    exact ⟨r, hr, h⟩
  | fast => exact h

theorem Core.Holds.of_fastClose {o : FastOutcome} (h : (c.fastClose id o).Holds tier k fence) :
    c.Holds tier k fence := by
  cases tier with
  | full => exact h
  | fast =>
    obtain ⟨r, hr, h⟩ := h
    obtain ⟨-, hr⟩ := Table.get?_erase_eq_some hr
    exact ⟨r, hr, h⟩

theorem Runtime.Becomes.fences {r r' : Runtime} (h : r.Becomes r') (hr : c.runtime.get? id = some r) :
    Fences c (c.setRuntime id r') := by
  refine .of_held rfl fun tier k fence hk => ?_
  rcases hk.of_setRuntime with ⟨rfl, rfl, hs, rfl⟩ | hk
  · obtain ⟨hs, hf, _⟩ := h.held hs
    exact ⟨_, hr, hs, hf.symm⟩
  · exact hk

theorem Quiet.fences (h : Quiet c c') : Fences c c' := by
  cases h with
  | revise hr h => exact h.fences hr
  | @claim id r hr hs worker now expires timeoutMs ht shard =>
    refine ⟨Nat.le_succ _, .inr ⟨.full, id, rfl, fun tier k fence hk => ?_⟩⟩
    rcases hk.of_setRuntime with ⟨rfl, rfl, -, rfl⟩ | hk
    · exact .inr ⟨rfl, rfl, rfl⟩
    · exact .inl (by cases tier <;> exact hk)
  | retry hr h =>
    have hf := h.fences hr
    exact ⟨hf.mono, .inl fun tier k fence hk => (hf.held.elim id fun ⟨_, _, hseq, _⟩ =>
      absurd hseq (Nat.ne_of_lt (Nat.lt_succ_self _))) tier k fence (by cases tier <;> exact hk)⟩
  | fastRecord | bind => exact .of_held rfl fun tier k fence hk => by cases tier <;> exact hk
  | skip => exact ⟨Nat.le_succ _, .inl fun tier k fence hk => by cases tier <;> exact hk⟩
  | fastRevise hr h =>
    refine .of_held rfl fun tier k fence hk => ?_
    rcases hk.of_setFast with ⟨rfl, rfl, hs, rfl⟩ | hk
    · obtain ⟨hs, hf, _⟩ := h.held hs
      exact ⟨_, hr, hs, hf.symm⟩
    · exact hk
  | @fastClaim id r hr hs worker now leaseMs =>
    refine ⟨Nat.le_succ _, .inr ⟨.fast, id, rfl, fun tier k fence hk => ?_⟩⟩
    rcases hk.of_setFast with ⟨rfl, rfl, -, rfl⟩ | hk
    · exact .inr ⟨rfl, rfl, rfl⟩
    · exact .inl (by cases tier <;> exact hk)
  | fastClose hr o => exact .of_held rfl fun tier k fence hk => hk.of_fastClose

theorem Resolve.holds (h : Resolve c c') (hk : c'.Holds tier k fence) : c.Holds tier k fence := by
  cases h with
  | release hr hs hv hs' =>
    rcases hk.of_setRuntime with ⟨rfl, rfl, h, -⟩ | hk
    · exact absurd h hs'
    · exact hk
  | count hr hs pending rejected =>
    cases tier with
    | fast => exact hk
    | full =>
      obtain ⟨r', hr', hs', hf⟩ := hk
      simp only [Core.setCounters, Table.get?_modify] at hr'
      split at hr'
      · obtain ⟨r'', hr'', rfl⟩ := Option.map_eq_some_iff.mp hr'
        exact ⟨r'', hr'', hs', hf⟩
      · exact ⟨r', hr', hs', hf⟩
  | close hr ho recorded =>
    have hk := hk.of_close
    cases tier <;> exact hk
  | fastClose hr o => exact hk.of_fastClose
  | fastRecord | edges => cases tier <;> exact hk

theorem Resolve.fenceSeq (h : Resolve c c') : c'.fenceSeq = c.fenceSeq := by cases h <;> rfl

theorem Write.fences (h : Write c c') : Fences c c' := by
  cases h with
  | quiet h => exact h.fences
  | resolve h => exact .of_held h.fenceSeq fun _ _ _ hk => h.holds hk
  | @create id hid t r hr =>
    refine .of_held rfl fun tier k fence hk => ?_
    rcases Core.Holds.of_setRuntime (c := { c with tasks := c.tasks.put _ t }) hk with ⟨rfl, rfl, h, -⟩ | hk
    · exact absurd h hr.idle
    · cases tier <;> exact hk
  | fastCreate hid t hr hs =>
    refine .of_held rfl fun tier k fence hk => ?_
    rcases Core.Holds.of_setFast (c := { c with tasks := c.tasks.put _ t }) hk with ⟨rfl, rfl, h, -⟩ | hk
    · rw [hs] at h
      cases h
    · cases tier <;> exact hk
  | delete gone hgone edges =>
    refine .of_held rfl fun tier k fence hk => ?_
    cases tier <;>
    · obtain ⟨r, hr, h⟩ := hk
      simp only [Table.get?_filter, Option.filter_eq_some_iff] at hr
      exact ⟨r, hr.1, h⟩

theorem Move.fences (h : Move c c') : Fences c c' := by
  cases h with
  | write h => exact h.fences
  | release hr h hattempt => exact h.fences hr

/-! ## Rows -/

theorem Runtime.Valid.setCounters {r : Runtime} (h : r.Valid) (hs : r.state = .blocked)
    (pending : Nat) (rejected : Bool) : Runtime.Valid { r with
      pendingPrerequisites := pending, dependencyRejected := rejected } :=
  ⟨h.shape, h.cancel, by simp [Runtime.counterCheck, hs]⟩

theorem forall_put {ν : Type} {t : Table TaskId ν} {p : ν → Prop}
    (hp : ∀ id r, t.get? id = some r → p r) {r' : ν} (hr' : p r') {k : TaskId} {r : ν}
    (h : (t.put id r').get? k = some r) : p r := by
  rcases Table.get?_put_cases h with ⟨-, rfl⟩ | ⟨-, h⟩
  · exact hr'
  · exact hp k r h

theorem Write.valid (h : Write c c') (hv : ∀ id r, c.runtime.get? id = some r → r.Valid) :
    ∀ id r, c'.runtime.get? id = some r → r.Valid := by
  have hput {id : TaskId} {r' : Runtime} (hr' : r'.Valid) {k : TaskId} {r : Runtime}
      (h : (c.runtime.put id r').get? k = some r) : r.Valid := forall_put hv hr' h
  have herase {id k : TaskId} {r : Runtime} (h : (c.runtime.erase id).get? k = some r) : r.Valid := by
    obtain ⟨-, h⟩ := Table.get?_erase_eq_some h
    exact hv k r h
  intro k r hk
  cases h with
  | quiet h =>
    cases h with
    | revise hr h => exact hput (h.valid (hv _ _ hr)) hk
    | retry hr h => exact hput (h.valid (hv _ _ hr)) hk
    | claim hr hs worker now expires ht shard =>
      exact hput ((hv _ _ hr).claimed hs worker (Nat.succ_pos _) now expires _ shard) hk
    | skip | bind | fastRevise | fastClaim | fastClose | fastRecord => exact hv k r hk
  | resolve h =>
    cases h with
    | release hr hs hv' _ _ _ => exact hput (hv' (hv _ _ hr)) hk
    | count hr hs pending rejected =>
      simp only [Core.setCounters, Table.get?_modify] at hk
      split at hk
      · rename_i hkid
        rw [hkid, hr] at hk
        cases hk
        exact (hv _ _ hr).setCounters hs pending rejected
      · exact hv k r hk
    | close => exact herase hk
    | fastClose | fastRecord | edges => exact hv k r hk
  | create hid hr => exact hput hr.valid hk
  | fastCreate => exact hv k r hk
  | delete =>
    simp only [Table.get?_filter, Option.filter_eq_some_iff] at hk
    exact hv k r hk.1

theorem Move.valid (h : Move c c') (hv : ∀ id r, c.runtime.get? id = some r → r.Valid) :
    ∀ id r, c'.runtime.get? id = some r → r.Valid := by
  cases h with
  | write h => exact h.valid hv
  | release hr h hattempt => exact fun _ _ hk => forall_put hv (h.valid (hv _ _ hr)) hk

theorem Write.fastValid (h : Write c c')
    (hv : ∀ id r, c.fastRuntime.get? id = some r → r.shapeCheck = true) :
    ∀ id r, c'.fastRuntime.get? id = some r → r.shapeCheck = true := by
  have hput {id : TaskId} {r' : FastRuntime} (hr' : r'.shapeCheck = true) {k : TaskId}
      {r : FastRuntime} (h : (c.fastRuntime.put id r').get? k = some r) : r.shapeCheck = true :=
    forall_put hv hr' h
  have herase {id k : TaskId} {r : FastRuntime} (h : (c.fastRuntime.erase id).get? k = some r) :
      r.shapeCheck = true := by
    obtain ⟨-, h⟩ := Table.get?_erase_eq_some h
    exact hv k r h
  intro k r hk
  cases h with
  | quiet h =>
    cases h with
    | fastRevise hr h => exact hput (h.valid (hv _ _ hr)) hk
    | fastClaim hr hs worker now leaseMs =>
      exact hput (FastRuntime.shapeCheck_claimed (hv _ _ hr) hs worker (Nat.succ_pos _) now leaseMs) hk
    | fastClose => exact herase hk
    | skip | bind | revise | retry | claim | fastRecord => exact hv k r hk
  | resolve h =>
    cases h with
    | fastClose => exact herase hk
    | release | count | close | fastRecord | edges => exact hv k r hk
  | create => exact hv k r hk
  | fastCreate hid t hr hs => exact hput hr hk
  | delete =>
    simp only [Table.get?_filter, Option.filter_eq_some_iff] at hk
    exact hv k r hk.1

theorem Move.fastValid (h : Move c c')
    (hv : ∀ id r, c.fastRuntime.get? id = some r → r.shapeCheck = true) :
    ∀ id r, c'.fastRuntime.get? id = some r → r.shapeCheck = true := by
  cases h with
  | write h => exact h.fastValid hv
  | release => exact hv

/-! ## Places -/

theorem Core.places_setRuntime {r : Runtime} (h : c.runtime.contains id = true) :
    (c.setRuntime id r).places k = c.places k := by
  by_cases hk : k = id <;> simp [places, setRuntime, hk, h]

theorem Core.places_setFast {r : FastRuntime} (h : c.fastRuntime.contains id = true) :
    (c.setFast id r).places k = c.places k := by
  by_cases hk : k = id <;> simp [places, setFast, hk, h]

theorem Core.places_close (h : c.runtime.contains id = true)
    (h' : c.outcomes.contains id = false) : (c.close id o).places k = c.places k := by
  by_cases hk : k = id <;> simp [places, close, hk, h, h']

theorem Core.places_fastClose {o : FastOutcome} (h : c.fastRuntime.contains id = true)
    (h' : c.fastOutcomes.contains id = false) : (c.fastClose id o).places k = c.places k := by
  by_cases hk : k = id <;> simp [places, fastClose, hk, h, h']

theorem Core.alone (hp : c.places id = (c.tasks.contains id).toNat)
    (h : c.runtime.contains id = true) : c.outcomes.contains id = false ∧
      c.fastRuntime.contains id = false ∧ c.fastOutcomes.contains id = false := by
  have hle := Bool.toNat_le (c.tasks.contains id)
  simp only [places, h, Bool.toNat_true] at hp
  simp only [← Bool.toNat_eq_zero]
  omega

theorem Core.fastAlone (hp : c.places id = (c.tasks.contains id).toNat)
    (h : c.fastRuntime.contains id = true) : c.runtime.contains id = false ∧
      c.outcomes.contains id = false ∧ c.fastOutcomes.contains id = false := by
  have hle := Bool.toNat_le (c.tasks.contains id)
  simp only [places, h, Bool.toNat_true] at hp
  simp only [← Bool.toNat_eq_zero]
  omega

theorem Quiet.placed (h : Quiet c c') (hp : ∀ id, c.places id = (c.tasks.contains id).toNat) :
    c'.places k = (c'.tasks.contains k).toNat := by
  cases h with
  | revise hr h => exact (Core.places_setRuntime (Table.contains_of_get? hr)).trans (hp k)
  | retry hr h => exact (Core.places_setRuntime (Table.contains_of_get? hr)).trans (hp k)
  | fastRecord => exact hp k
  | claim hr => exact (Core.places_setRuntime (c := c.draw) (Table.contains_of_get? hr)).trans (hp k)
  | skip | bind => exact hp k
  | fastRevise hr h => exact (Core.places_setFast (Table.contains_of_get? hr)).trans (hp k)
  | fastClaim hr => exact (Core.places_setFast (c := c.draw) (Table.contains_of_get? hr)).trans (hp k)
  | fastClose hr o =>
    have hc := Table.contains_of_get? hr
    exact (Core.places_fastClose hc (Core.fastAlone (hp _) hc).2.2).trans (hp k)

theorem Resolve.placed (h : Resolve c c') (hp : ∀ id, c.places id = (c.tasks.contains id).toNat) :
    c'.places k = (c'.tasks.contains k).toNat := by
  cases h with
  | release hr => exact (Core.places_setRuntime (Table.contains_of_get? hr)).trans (hp k)
  | count hr => simpa [Core.places, Core.setCounters] using hp k
  | close hr ho recorded =>
    have hc := Table.contains_of_get? hr
    exact (Core.places_close hc (Core.alone (hp _) hc).1).trans (hp k)
  | fastClose hr o =>
    have hc := Table.contains_of_get? hr
    exact (Core.places_fastClose hc (Core.fastAlone (hp _) hc).2.2).trans (hp k)
  | fastRecord | edges => exact hp k

theorem Core.nowhere (hp : c.places id = (c.tasks.contains id).toNat)
    (h : c.tasks.get? id = none) : c.runtime.contains id = false ∧ c.outcomes.contains id = false ∧
      c.fastRuntime.contains id = false ∧ c.fastOutcomes.contains id = false := by
  simp only [places, Table.not_contains_iff.mpr h, Bool.toNat_false] at hp
  simp only [← Bool.toNat_eq_zero]
  omega

theorem Write.placed (h : Write c c') (hp : ∀ id, c.places id = (c.tasks.contains id).toNat) :
    ∀ id, c'.places id = (c'.tasks.contains id).toNat := by
  intro k
  cases h with
  | quiet h => exact h.placed hp
  | resolve h => exact h.placed hp
  | @create id hid t r hr =>
    obtain ⟨h₁, h₂, h₃, h₄⟩ := Core.nowhere (hp id) hid
    by_cases hk : k = id
    · simp [Core.places, Core.create, hk, h₂, h₃, h₄]
    · simpa [Core.places, Core.create, hk] using hp k
  | @fastCreate id hid t r hr hs =>
    obtain ⟨h₁, h₂, h₃, h₄⟩ := Core.nowhere (hp id) hid
    by_cases hk : k = id
    · simp [Core.places, Core.createFast, hk, h₁, h₂, h₄]
    · simpa [Core.places, Core.createFast, hk] using hp k
  | delete gone hgone edges =>
    have hpk := hp k
    cases hk : gone k with
    | false => simpa [Core.places, hk] using hpk
    | true =>
      simp only [Core.places, Table.contains_filter, hk, Bool.not_true, Bool.false_and, Bool.toNat_false]
      rcases hgone k hk with h | h
      · simp [Core.alone hpk h]
      · simp [Core.fastAlone hpk h]

theorem Move.placed (h : Move c c') (hp : ∀ id, c.places id = (c.tasks.contains id).toNat) :
    ∀ id, c'.places id = (c'.tasks.contains id).toNat := by
  cases h with
  | write h => exact h.placed hp
  | release hr h hattempt => exact fun k => (Core.places_setRuntime (Table.contains_of_get? hr)).trans (hp k)

/-! ## Runs of moves -/

theorem Core.Sound.move (hc : c.Sound) (h : Move c c') : c'.Sound where
  placed := h.placed hc.placed
  valid := h.valid hc.valid
  fastValid := h.fastValid hc.fastValid
  drawn tier id fence hk := by
    have hf := h.fences
    rcases hf.held with held | ⟨tier₀, id₀, hseq, held⟩
    · exact (hc.drawn _ _ _ (held _ _ _ hk)).trans hf.mono
    · rcases held _ _ _ hk with hk | ⟨-, -, rfl⟩
      · exact (hc.drawn _ _ _ hk).trans hf.mono
      · exact hseq.ge
  unique tier tier' id id' fence hk hk' := by
    rcases h.fences.held with held | ⟨tier₀, id₀, hseq, held⟩
    · exact hc.unique _ _ _ _ _ (held _ _ _ hk) (held _ _ _ hk')
    · -- The next token is above every token that a row held before.
      have hnew {tier id} (hk : c.Holds tier id (c.fenceSeq + 1)) : False :=
        absurd (hc.drawn _ _ _ hk) (Nat.not_succ_le_self _)
      rcases held _ _ _ hk with hk | ⟨rfl, rfl, rfl⟩
      · rcases held _ _ _ hk' with hk' | ⟨-, -, rfl⟩
        · exact hc.unique _ _ _ _ _ hk hk'
        · exact (hnew hk).elim
      · rcases held _ _ _ hk' with hk' | ⟨rfl, rfl, -⟩
        · exact (hnew hk').elim
        · exact ⟨rfl, rfl⟩

theorem Core.Sound.moves (hc : c.Sound) (h : Moves c c') : c'.Sound := by
  induction h with
  | refl => exact hc
  | tail _ h ih => exact ih.move h

theorem Moves.fenceSeq_le (h : Moves c c') : c.fenceSeq ≤ c'.fenceSeq := by
  induction h with
  | refl => exact le_rfl
  | tail _ h ih => exact ih.trans h.fences.mono

theorem Moves.host (h : Moves c c') : c'.host = c.host := by
  induction h with
  | refl => rfl
  | tail _ h ih =>
    rw [← ih]
    cases h with
    | release => rfl
    | write h =>
      cases h with
      | quiet h => cases h <;> rfl
      | resolve h => cases h <;> rfl
      | create | fastCreate | delete => rfl

/-- A row that is active after some moves was active under the same token before them, or its token
was drawn by them. -/
theorem Moves.holds (h : Moves c c') (hk : c'.Holds tier k fence) : c.Holds tier k fence ∨ c.fenceSeq < fence := by
  induction h with
  | refl => exact .inl hk
  | tail hcc h ih =>
    have hle := Moves.fenceSeq_le hcc
    rcases h.fences.held with held | ⟨tier₀, id₀, hseq, held⟩
    · exact ih (held _ _ _ hk)
    · rcases held _ _ _ hk with hk | ⟨-, -, rfl⟩
      · exact ih hk
      · exact .inr (by omega)

theorem Resolves.writes (h : Resolves c c') : Writes c c' := ReflTransGen.mono (fun _ _ h => .resolve h) c c' h

theorem Act.writes (h : Act c c') : Writes c c' := by
  cases h with
  | quiet h => exact .single (.quiet h)
  | finish hr ho recorded => exact Resolves.writes (finish_resolves onOutcomes_resolves hr ho recorded)

theorem Acts.writes (h : Acts c c') : Writes c c' := by
  induction h with
  | refl => exact .refl
  | tail _ h ih => exact ih.trans h.writes

theorem Writes.moves (h : Writes c c') : Moves c c' := ReflTransGen.mono (fun _ _ h => .write h) c c' h

theorem Acts.moves (h : Acts c c') : Moves c c' := h.writes.moves

theorem Write.outcome (hc : c.Sound) (h : Write c c') (ho : c.outcomes.get? id = some o) :
    c'.outcomes.get? id = some o := by
  cases h with
  | quiet h => cases h <;> exact ho
  | resolve h =>
    cases h with
    | @close k r hr o' ho' recorded =>
      have hne : id ≠ k := by
        rintro rfl
        have hnone := (Core.alone (hc.placed id) (Table.contains_of_get? hr)).1
        rw [Table.contains_of_get? ho] at hnone
        cases hnone
      simpa [Core.close, Core.note, hne] using ho
    | release | count | fastClose | fastRecord | edges => exact ho
  | create | fastCreate | delete => exact ho

theorem Move.outcome (hc : c.Sound) (h : Move c c') (ho : c.outcomes.get? id = some o) :
    c'.outcomes.get? id = some o := by
  cases h with
  | write h => exact h.outcome hc ho
  | release => exact ho

theorem Moves.outcome (hc : c.Sound) (h : Moves c c')
    (ho : c.outcomes.get? id = some o) : c'.outcomes.get? id = some o := by
  induction h with
  | refl => exact ho
  | tail h h' ih => exact h'.outcome (hc.moves h) ih

end Workhorse
