import Workhorse.Heartbeat.Lemmas.Borrow

/-!
# Heartbeat connections
-/

namespace Workhorse

namespace BorrowPool

variable {s : BorrowPool} {a : Nat}

theorem Custody.owner (h : s.Custody a) (hget : s.acquisitions.contains a) : ∃! o, s.Owns a o := by
  have hnone : s.parked.count a = 0 → a ∉ s.parked := List.count_eq_zero.mp
  cases h with
  | unused hget' =>
    rw [Table.contains, hget'] at hget
    cases hget
  | awaited id stop hget hparked hid honly =>
    refine ⟨.borrow id, ⟨_, hid, by simp [Borrow.owns]⟩, fun o ho => ?_⟩
    cases o with
    | borrow id' =>
      obtain ⟨b, hb, howns⟩ := ho
      rw [honly id' b hb howns]
    | parked => exact absurd ho (hnone hparked)
    | pool => simp [Owns, hget] at ho
  | parked hget hparked hfree =>
    refine ⟨.parked, List.count_pos_iff.mp (by omega), fun o ho => ?_⟩
    cases o with
    | borrow id =>
      obtain ⟨b, hb, howns⟩ := ho
      rw [hfree id b hb] at howns
      cases howns
    | parked => rfl
    | pool => simp [Owns, hget] at ho
  | held id b hget hparked hid hb honly =>
    refine ⟨.borrow id, ⟨b, hid, ?_⟩, fun o ho => ?_⟩
    · obtain ⟨stop, rfl⟩ | rfl := hb <;> simp [Borrow.owns]
    · cases o with
      | borrow id' =>
        obtain ⟨b, hb, howns⟩ := ho
        rw [honly id' b hb howns]
      | parked => exact absurd ho (hnone hparked)
      | pool => simp [Owns, hget] at ho
  | returned connected destroyed hget hparked hfree =>
    refine ⟨.pool, ⟨_, hget, by simp +contextual⟩, fun o ho => ?_⟩
    cases o with
    | borrow id =>
      obtain ⟨b, hb, howns⟩ := ho
      rw [hfree id b hb] at howns
      cases howns
    | parked => exact absurd ho (hnone hparked)
    | pool => rfl

end BorrowPool

/-- Each connect has one owner. A connection is released once: it was, or its borrow has it and releases it. There are
never more connects outstanding than borrows have waited at once. -/
theorem borrowed_connections_released {peak : Nat} {s : BorrowPool} (h : Borrowing peak s) :
    (∀ a, s.acquisitions.contains a → ∃! o, s.Owns a o) ∧ (∀ a acquisition, s.acquisitions.get? a = some acquisition →
      if acquisition.connected then
        (s.Owns a .pool ∧ acquisition.released = 1) ∨
        (∃ id, s.Owns a (.borrow id) ∧ acquisition.released = 0 ∧ ∀ outcome, ∃ turns s' acquisition',
          turns.Sublist [BorrowTurn.resume id, .finish id outcome] ∧ BorrowPool.run turns s = some s' ∧
          s'.acquisitions.get? a = some acquisition' ∧ acquisition'.released = 1)
      else acquisition.released = 0) ∧
    s.outstanding ≤ peak := by
  obtain ⟨hinv, hpeak⟩ := h.inv
  refine ⟨fun a ha => (hinv.custody a).owner ha, fun a acquisition hget => ?_, hpeak⟩
  cases hinv.custody a with
  | unused hget' =>
    rw [hget] at hget'
    cases hget'
  | awaited _ _ hget' | parked hget' =>
    rw [hget] at hget'
    cases hget'
    rfl
  | held id b hget' hparked hid hb honly =>
    rw [hget] at hget'
    cases hget'
    have howns : b.owns a = true := by
      obtain ⟨stop, rfl⟩ | rfl := hb <;> simp [Borrow.owns]
    rw [if_pos rfl]
    exact .inr ⟨id, ⟨b, hid, howns⟩, rfl, BorrowPool.held_released hinv hid hb⟩
  | returned connected destroyed hget' hparked hfree =>
    rw [hget] at hget'
    cases hget'
    cases connected with
    | true => exact .inl ⟨⟨_, hget, rfl, fun _ => Nat.one_pos⟩, rfl⟩
    | false => rfl

namespace BorrowPool

def runPeak : List BorrowTurn → Nat → BorrowPool → Option (Nat × BorrowPool)
  | [], peak, s => some (peak, s)
  | t :: turns, peak, s => (s.step t).bind fun s' => runPeak turns (max peak s'.waiting) s'

theorem borrowing_of_runPeak {turns : List BorrowTurn} {peak peak' : Nat} {s s' : BorrowPool} (h : Borrowing peak s)
    (hr : runPeak turns peak s = some (peak', s')) : Borrowing peak' s' := by
  induction turns generalizing peak s with
  | nil =>
    cases hr
    exact h
  | cons t turns ih =>
    obtain ⟨s₁, h₁, hr⟩ := Option.bind_eq_some_iff.mp hr
    exact ih (h.turn h₁) hr

def lateConnect : List BorrowTurn :=
  [.borrow 1 10 false, .stop 1, .resume 1, .borrow 2 11 false, .stop 2, .resume 2, .borrow 3 12 true, .resume 3,
    .connected 10]

theorem lateConnect_run : (runPeak lateConnect 0 empty).any (fun r => r.1 == 1 &&
    (r.2.acquisitions.get? 10).any fun x => x.connected && x.released == 1) = true := by
  decide +kernel

end BorrowPool

open BorrowPool in
theorem borrowed_connections_released_late : ∃ s x, Borrowing 1 s ∧ s.outstanding ≤ 1 ∧
    s.acquisitions.get? 10 = some x ∧ x.connected = true ∧ x.released = 1 ∧ ∃! o, s.Owns 10 o := by
  obtain ⟨⟨peak, s⟩, hr, h⟩ := (Option.any_eq_true _ _).mp lateConnect_run
  obtain ⟨hpeak, h⟩ := (Bool.and_eq_true _ _).mp h
  obtain ⟨x, hx, h⟩ := (Option.any_eq_true _ _).mp h
  obtain ⟨hconnected, hone⟩ := (Bool.and_eq_true _ _).mp h
  obtain rfl : peak = 1 := beq_iff_eq.mp hpeak
  have hreach := borrowing_of_runPeak .start hr
  have hkept := borrowed_connections_released hreach
  exact ⟨s, x, hreach, hkept.2.2, hx, hconnected, beq_iff_eq.mp hone, hkept.1 10 (Table.contains_of_get? hx)⟩

end Workhorse
