import Workhorse.Heartbeat.Borrow
import Workhorse.Lib.TableCount

/-!
# Custody of a borrowed connection

A connect is awaited by one borrow, parked once, held by one borrow, or back at the pool (`Custody`). A turn moves one
connect from one of these to another.
-/

namespace Workhorse

namespace Borrow

@[simp] theorem waits_waiting (a : Nat) (stop : Bool) : (waiting a stop).waits = true := rfl
@[simp] theorem waits_received (a : Nat) (stop : Bool) : (received a stop).waits = false := rfl
@[simp] theorem waits_refused (stop : Bool) : (refused stop).waits = false := rfl
@[simp] theorem waits_operating (a : Nat) : (operating a).waits = false := rfl
@[simp] theorem waits_done : done.waits = false := rfl

end Borrow

namespace BorrowPool

variable {s s' : BorrowPool} {a a' id : Nat} {b : Borrow}

def Free (s : BorrowPool) (a : Nat) : Prop := ∀ id b, s.borrows.get? id = some b → b.owns a = false

def Only (s : BorrowPool) (a id : Nat) : Prop := ∀ id' b, s.borrows.get? id' = some b → b.owns a → id' = id

inductive Custody (s : BorrowPool) (a : Nat) : Prop
  | unused (hget : s.acquisitions.get? a = none) (hparked : s.parked.count a = 0) (hfree : s.Free a)
  | awaited (id : Nat) (stop : Bool) (hget : s.acquisitions.get? a = some ⟨some id, false, false, 0, false⟩)
    (hparked : s.parked.count a = 0) (hid : s.borrows.get? id = some (.waiting a stop)) (honly : s.Only a id)
  | parked (hget : s.acquisitions.get? a = some ⟨none, false, false, 0, false⟩) (hparked : s.parked.count a = 1)
    (hfree : s.Free a)
  | held (id : Nat) (b : Borrow) (hget : s.acquisitions.get? a = some ⟨none, true, true, 0, false⟩)
    (hparked : s.parked.count a = 0) (hid : s.borrows.get? id = some b)
    (hb : (∃ stop, b = .received a stop) ∨ b = .operating a) (honly : s.Only a id)
  | returned (connected destroyed : Bool)
    (hget : s.acquisitions.get? a = some ⟨none, true, connected, if connected then 1 else 0, destroyed⟩)
    (hparked : s.parked.count a = 0) (hfree : s.Free a)

structure Elsewhere (s s' : BorrowPool) (a : Nat) : Prop where
  acquisitions : ∀ a' ≠ a, s'.acquisitions.get? a' = s.acquisitions.get? a'
  parked : ∀ a' ≠ a, s'.parked.count a' = s.parked.count a'
  borrows : ∀ a' ≠ a, ∀ id b, b.owns a' → (s'.borrows.get? id = some b ↔ s.borrows.get? id = some b)

namespace Elsewhere

variable (he : Elsewhere s s' a) (hne : a' ≠ a)

include he hne

theorem free (h : s.Free a') : s'.Free a' := by
  intro id b hb
  by_contra howns
  have howns : b.owns a' = true := by simpa using howns
  rw [h id b ((he.borrows a' hne id b howns).mp hb)] at howns
  cases howns

theorem only (h : s.Only a' id) : s'.Only a' id :=
  fun id' b hb howns => h id' b ((he.borrows a' hne id' b howns).mp hb) howns

theorem custody (h : s.Custody a') : s'.Custody a' := by
  have hacq := he.acquisitions a' hne
  have hcount := he.parked a' hne
  cases h with
  | unused hget hparked hfree => exact .unused (hacq ▸ hget) (hcount ▸ hparked) (he.free hne hfree)
  | awaited id stop hget hparked hid honly =>
    exact .awaited id stop (hacq ▸ hget) (hcount ▸ hparked)
      ((he.borrows a' hne id _ (by simp [Borrow.owns])).mpr hid) (he.only hne honly)
  | parked hget hparked hfree => exact .parked (hacq ▸ hget) (hcount ▸ hparked) (he.free hne hfree)
  | held id b hget hparked hid hb honly =>
    have howns : b.owns a' = true := by
      obtain ⟨stop, rfl⟩ | rfl := hb <;> simp [Borrow.owns]
    exact .held id b (hacq ▸ hget) (hcount ▸ hparked) ((he.borrows a' hne id b howns).mpr hid) hb (he.only hne honly)
  | returned connected destroyed hget hparked hfree =>
    exact .returned connected destroyed (hacq ▸ hget) (hcount ▸ hparked) (he.free hne hfree)

end Elsewhere

theorem Elsewhere.of_put (hacq : ∀ a' ≠ a, s'.acquisitions.get? a' = s.acquisitions.get? a')
    (hparked : ∀ a' ≠ a, s'.parked.count a' = s.parked.count a') (hb : s'.borrows = s.borrows.put id b)
    (hold : ∀ b', s.borrows.get? id = some b' → ∀ a' ≠ a, b'.owns a' = false)
    (hnew : ∀ a' ≠ a, b.owns a' = false) : Elsewhere s s' a := by
  refine ⟨hacq, hparked, fun a' hne id' b' howns => ?_⟩
  rw [hb, Table.get?_put]
  split
  · rename_i hid
    subst hid
    refine ⟨fun h => ?_, fun h => ?_⟩
    · cases h
      rw [hnew a' hne] at howns
      cases howns
    · rw [hold b' h a' hne] at howns
      cases howns
  · rfl

theorem Only.put (h : s.Only a id) {acquisitions : Table Nat BorrowAcquisition} {parked : List Nat} :
    (⟨acquisitions, parked, s.borrows.put id b⟩ : BorrowPool).Only a id := by
  intro id' b' hb howns
  rw [Table.get?_put] at hb
  split at hb
  · assumption
  · exact h id' b' hb howns

theorem Only.free (h : s.Only a id) {acquisitions : Table Nat BorrowAcquisition} {parked : List Nat}
    (hb : b.owns a = false) : (⟨acquisitions, parked, s.borrows.put id b⟩ : BorrowPool).Free a := by
  intro id' b' hid
  rcases Table.get?_put_cases hid with ⟨-, rfl⟩ | ⟨hne, hid⟩
  · exact hb
  · by_contra howns
    exact hne (h id' b' hid (by simpa using howns))

theorem Free.put (h : s.Free a) {acquisitions : Table Nat BorrowAcquisition} {parked : List Nat} :
    (⟨acquisitions, parked, s.borrows.put id b⟩ : BorrowPool).Only a id := by
  intro id' b' hb howns
  rw [Table.get?_put] at hb
  split at hb
  · assumption
  · rw [h id' b' hb] at howns
    cases howns

/-! ## Where a connect stands -/

theorem Custody.of_waiting {stop : Bool} (h : s.Custody a) (hid : s.borrows.get? id = some (.waiting a stop)) :
    s.acquisitions.get? a = some ⟨some id, false, false, 0, false⟩ ∧ s.parked.count a = 0 ∧ s.Only a id := by
  have howns : (Borrow.waiting a stop).owns a = true := by simp [Borrow.owns]
  cases h with
  | awaited id' stop' hget hparked hid' honly =>
    obtain rfl := honly id _ hid howns
    exact ⟨hget, hparked, honly⟩
  | held id' b hget hparked hid' hb honly =>
    obtain rfl := honly id _ hid howns
    rw [hid] at hid'
    cases hid'
    simp at hb
  | unused _ _ hfree | parked _ _ hfree | returned _ _ _ _ hfree =>
    rw [hfree id _ hid] at howns
    cases howns

theorem Custody.of_held (h : s.Custody a) (hid : s.borrows.get? id = some b)
    (hb : (∃ stop, b = .received a stop) ∨ b = .operating a) :
    s.acquisitions.get? a = some ⟨none, true, true, 0, false⟩ ∧ s.parked.count a = 0 ∧ s.Only a id := by
  have howns : b.owns a = true := by
    obtain ⟨stop, rfl⟩ | rfl := hb <;> simp [Borrow.owns]
  cases h with
  | awaited id' stop' hget hparked hid' honly =>
    obtain rfl := honly id _ hid howns
    rw [hid] at hid'
    cases hid'
    simp at hb
  | held id' b' hget hparked hid' hb honly =>
    obtain rfl := honly id _ hid howns
    exact ⟨hget, hparked, honly⟩
  | unused _ _ hfree | parked _ _ hfree | returned _ _ _ _ hfree =>
    rw [hfree id _ hid] at howns
    cases howns

/-! ## Turns -/

structure Inv (s : BorrowPool) : Prop where
  custody : ∀ a, s.Custody a
  balance : s.outstanding = s.parked.length + s.waiting

def Grows (s s' : BorrowPool) : Prop := s'.outstanding ≤ s.outstanding ∨ s'.parked = []

theorem Inv.of_elsewhere (h : s.Inv) (he : Elsewhere s s' a) (ha : s'.Custody a)
    (ho : s'.outstanding = s'.parked.length + s'.waiting) : s'.Inv := by
  refine ⟨fun a' => ?_, ho⟩
  by_cases hne : a' = a
  · exact hne ▸ ha
  · exact he.custody hne (h.custody a')

theorem outstanding_put (s : BorrowPool) (a : Nat) (x : BorrowAcquisition) :
    ((s.acquisitions.put a x).count fun _ y => !y.settled) +
      (if (s.acquisitions.get? a).any (fun y => !y.settled) then 1 else 0) =
      s.outstanding + if x.settled then 0 else 1 := by
  cases hx : x.settled <;> simpa [hx, outstanding] using Table.count_put_add s.acquisitions a x fun _ y => !y.settled

theorem waiting_put (s : BorrowPool) (id : Nat) (b : Borrow) :
    ((s.borrows.put id b).count fun _ y => y.waits) + (if (s.borrows.get? id).any Borrow.waits then 1 else 0) =
      s.waiting + if b.waits then 1 else 0 := Table.count_put_add _ _ _ _

theorem get?_put_ne (x : BorrowAcquisition) : ∀ a' ≠ a, (s.acquisitions.put a x).get? a' = s.acquisitions.get? a' := by
  intro a' hne
  rw [Table.get?_put, if_neg hne]

theorem Inv.borrow (h : s.Inv) {fresh : Nat} {aborted : Bool} (hs : s.borrow id fresh aborted = some s') :
    s'.Inv ∧ s.Grows s' := by
  simp only [BorrowPool.borrow] at hs
  split at hs
  · cases hs
  rename_i hfresh
  simp only [Bool.or_eq_true, not_or, Bool.not_eq_true, Table.not_contains_iff] at hfresh
  obtain ⟨hid, hfresh⟩ := hfresh
  have ho := h.balance
  split at hs
  · rename_i hparked
    cases hs
    have hx := s.outstanding_put fresh ⟨some id, false, false, 0, false⟩
    have hy := s.waiting_put id (.waiting fresh aborted)
    have hfree : s.Free fresh := by
      cases h.custody fresh with
      | unused _ _ hfree => exact hfree
      | awaited _ _ hget | parked hget | held _ _ hget | returned _ _ hget =>
        rw [hfresh] at hget
        cases hget
    refine ⟨h.of_elsewhere (a := fresh) (.of_put (get?_put_ne _) (fun _ _ => rfl) rfl (by simp [hid]) ?_) ?_ ?_,
      .inr hparked⟩
    · simp +contextual [Borrow.owns, eq_comm]
    · exact .awaited id aborted (by simp) (by simp [hparked]) (by simp) hfree.put
    · simp [hid, hfresh, hparked, outstanding, waiting] at hx hy ho ⊢
      omega
  · rename_i a parked hparked
    obtain ⟨taken, htaken, rfl⟩ := Option.map_eq_some_iff.mp hs
    have hx := s.outstanding_put a { taken with waiter := some id }
    have hy := s.waiting_put id (.waiting a aborted)
    -- The oldest parked connect is owned by no borrow, and stands in the list once.
    obtain ⟨rfl, hnot, hfree⟩ : taken = ⟨none, false, false, 0, false⟩ ∧ parked.count a = 0 ∧ s.Free a := by
      cases h.custody a with
      | parked hget hcount hfree =>
        rw [htaken] at hget
        cases hget
        rw [hparked, List.count_cons_self] at hcount
        exact ⟨rfl, by omega, hfree⟩
      | unused _ hcount | awaited _ _ _ hcount | held _ _ _ hcount | returned _ _ _ hcount =>
        rw [hparked, List.count_cons_self] at hcount
        omega
    refine ⟨h.of_elsewhere (a := a) (.of_put (get?_put_ne _) (fun a' hne => ?_) rfl (by simp [hid]) ?_) ?_ ?_, .inl ?_⟩
    · rw [hparked, List.count_cons_of_ne (Ne.symm hne)]
    · simp +contextual [Borrow.owns, eq_comm]
    · exact .awaited id aborted (by simp) hnot (by simp) hfree.put
    · simp [hid, htaken, hparked, outstanding, waiting] at hx hy ho ⊢
      omega
    · simp [htaken, outstanding] at hx ⊢
      omega

theorem Inv.settle (h : s.Inv) {connected : Bool} (hs : s.settle a connected = some s') : s'.Inv ∧ s.Grows s' := by
  simp only [BorrowPool.settle] at hs
  split at hs
  swap
  · cases hs
  rename_i acquisition hget
  split at hs
  · cases hs
  rename_i hopen
  have ho := h.balance
  have hcount : ∀ a' ≠ a, (s.parked.erase a).count a' = s.parked.count a' :=
    fun a' hne => List.count_erase_of_ne hne
  split at hs
  · rename_i id hwaiter
    obtain ⟨b, hb, rfl⟩ := Option.map_eq_some_iff.mp hs
    obtain ⟨stop, rfl, rfl, hparked, honly⟩ : ∃ stop, acquisition = ⟨some id, false, false, 0, false⟩ ∧
        b = .waiting a stop ∧ s.parked.count a = 0 ∧ s.Only a id := by
      cases h.custody a with
      | awaited id' stop hget' hparked hid honly =>
        rw [hget] at hget'
        cases hget'
        cases hwaiter
        rw [hb] at hid
        exact ⟨stop, rfl, Option.some_inj.mp hid, hparked, honly⟩
      | unused hget' | parked hget' | held _ _ hget' | returned _ _ hget' =>
        rw [hget] at hget'
        cases hget' <;> cases hwaiter
    have herase : s.parked.erase a = s.parked := List.erase_of_not_mem (List.count_eq_zero.mp hparked)
    have hx := s.outstanding_put a ⟨none, true, connected, 0, false⟩
    have hy := s.waiting_put id (if connected then .received a stop else .refused stop)
    refine ⟨h.of_elsewhere (a := a) (.of_put (get?_put_ne _) hcount rfl ?_ ?_) ?_ ?_, .inl ?_⟩
    · simp +contextual [hb, Borrow.owns, eq_comm]
    · cases connected <;> simp +contextual [Borrow.owns, Borrow.deliver, Borrow.fail, eq_comm]
    · cases connected with
      | true =>
        exact .held id (.received a stop) (by simp) (by simp [herase, hparked]) (by simp [Borrow.deliver])
          (.inl ⟨_, rfl⟩) honly.put
      | false =>
        exact .returned false false (by simp) (by simp [herase, hparked])
          (honly.free (by simp [Borrow.fail, Borrow.owns]))
    · cases connected <;>
      · simp [hb, hget, herase, Borrow.deliver, Borrow.fail, outstanding, waiting] at hx hy ho ⊢
        omega
    · simp [hget, outstanding] at hx ⊢
      omega
  · rename_i hwaiter
    cases hs
    obtain ⟨rfl, hparked, hfree⟩ : acquisition = ⟨none, false, false, 0, false⟩ ∧ s.parked.count a = 1 ∧ s.Free a := by
      cases h.custody a with
      | parked hget' hparked hfree =>
        rw [hget] at hget'
        cases hget'
        exact ⟨rfl, hparked, hfree⟩
      | unused hget' | awaited _ _ hget' | held _ _ hget' | returned _ _ hget' =>
        rw [hget] at hget'
        cases hget' <;> simp at hwaiter hopen
    have hmem : a ∈ s.parked := List.count_pos_iff.mp (by omega)
    have hlen := List.length_erase_of_mem hmem
    have hpos := List.length_pos_of_mem hmem
    have hx := s.outstanding_put a ⟨none, true, connected, if connected then 1 else 0, false⟩
    refine ⟨h.of_elsewhere (a := a) ⟨get?_put_ne _, hcount, fun _ _ _ _ _ => Iff.rfl⟩ ?_ ?_, .inl ?_⟩
    · refine .returned connected false ?_ (by simp [hparked]) hfree
      cases connected <;> simp
    · cases connected <;>
      · simp [hget, outstanding, waiting] at hx ho ⊢
        omega
    · cases connected <;>
      · simp [hget, outstanding] at hx ⊢
        omega

theorem Inv.stop (h : s.Inv) (hs : s.stop id = some s') : s'.Inv ∧ s.Grows s' := by
  simp only [BorrowPool.stop] at hs
  split at hs
  swap
  · cases hs
  rename_i a hid
  cases hs
  obtain ⟨hget, hparked, honly⟩ := (h.custody a).of_waiting hid
  have ho := h.balance
  have hy := s.waiting_put id (.waiting a true)
  refine ⟨h.of_elsewhere (a := a) (.of_put (fun _ _ => rfl) (fun _ _ => rfl) rfl ?_ ?_) ?_ ?_, .inl le_rfl⟩
  · simp +contextual [hid, Borrow.owns, eq_comm]
  · simp +contextual [Borrow.owns, eq_comm]
  · exact .awaited id true hget hparked (by simp) honly.put
  · simp [hid, outstanding, waiting] at hy ho ⊢
    omega

theorem Inv.release (h : s.Inv) {destroyed : Bool} (hid : s.borrows.get? id = some b)
    (hb : (∃ stop, b = .received a stop) ∨ b = .operating a) (hs : s.release id a destroyed = some s') :
    s'.Inv ∧ s.Grows s' := by
  obtain ⟨acquisition, hget', rfl⟩ := Option.map_eq_some_iff.mp hs
  obtain ⟨hget, hparked, honly⟩ := (h.custody a).of_held hid hb
  rw [hget] at hget'
  cases hget'
  have ho := h.balance
  have hx := s.outstanding_put a ⟨none, true, true, 1, destroyed⟩
  have hy := s.waiting_put id .done
  have hwaits : b.waits = false := by
    obtain ⟨stop, rfl⟩ | rfl := hb <;> rfl
  refine ⟨h.of_elsewhere (a := a) (.of_put (get?_put_ne _) (fun _ _ => rfl) rfl ?_ (fun _ _ => rfl)) ?_ ?_, .inl ?_⟩
  · obtain ⟨stop, rfl⟩ | rfl := hb <;> simp +contextual [hid, Borrow.owns, eq_comm]
  · exact .returned true destroyed (by simp) hparked (honly.free rfl)
  · simp [hid, hget, hwaits, outstanding, waiting] at hx hy ho ⊢
    omega
  · simp [hget, outstanding] at hx ⊢
    omega

theorem Inv.resume (h : s.Inv) (hs : s.resume id = some s') : s'.Inv ∧ s.Grows s' := by
  simp only [BorrowPool.resume] at hs
  have ho := h.balance
  split at hs
  · -- The wait ended first, so the borrow parks its connect.
    rename_i a hid
    obtain ⟨hget, hparked, honly⟩ := (h.custody a).of_waiting hid
    obtain ⟨acquisition, hget', rfl⟩ := Option.map_eq_some_iff.mp hs
    rw [hget] at hget'
    cases hget'
    have hx := s.outstanding_put a ⟨none, false, false, 0, false⟩
    have hy := s.waiting_put id .done
    simp only [Option.isSome_some, if_true]
    refine ⟨h.of_elsewhere (a := a) (.of_put (get?_put_ne _) (fun a' hne => ?_) rfl ?_ (fun _ _ => rfl)) ?_ ?_, .inl ?_⟩
    · simp [Ne.symm hne]
    · simp +contextual [hid, Borrow.owns, eq_comm]
    · exact .parked (by simp) (by simp [hparked]) (honly.free rfl)
    · simp [hid, hget, outstanding, waiting] at hx hy ho ⊢
      omega
    · simp [hget, outstanding] at hx ⊢
      omega
  · rename_i a hid
    exact h.release hid (.inl ⟨_, rfl⟩) hs
  · rename_i a hid
    cases hs
    obtain ⟨hget, hparked, honly⟩ := (h.custody a).of_held hid (.inl ⟨_, rfl⟩)
    have hy := s.waiting_put id (.operating a)
    refine ⟨h.of_elsewhere (a := a) (.of_put (fun _ _ => rfl) (fun _ _ => rfl) rfl ?_ ?_) ?_ ?_, .inl le_rfl⟩
    · simp +contextual [hid, Borrow.owns, eq_comm]
    · simp +contextual [Borrow.owns, eq_comm]
    · exact .held id _ hget hparked (by simp) (.inr rfl) honly.put
    · simp [hid, outstanding, waiting] at hy ho ⊢
      omega
  · -- The connect failed, and no connect is the borrow's own.
    rename_i stop hid
    cases hs
    have hy := s.waiting_put id .done
    have helsewhere (a : Nat) : Elsewhere s { s with borrows := s.borrows.put id .done } a :=
      .of_put (fun _ _ => rfl) (fun _ _ => rfl) rfl (by simp [hid, Borrow.owns]) (fun _ _ => rfl)
    refine ⟨⟨fun a => (helsewhere (a + 1)).custody (by omega) (h.custody a), ?_⟩, .inl le_rfl⟩
    simp [hid, outstanding, waiting] at hy ho ⊢
    omega
  · cases hs

theorem Inv.finish (h : s.Inv) {outcome : BorrowOutcome} (hs : s.finish id outcome = some s') :
    s'.Inv ∧ s.Grows s' := by
  simp only [BorrowPool.finish] at hs
  split at hs
  · rename_i a hid
    exact h.release hid (.inr rfl) hs
  · cases hs

theorem Inv.step (h : s.Inv) {t : BorrowTurn} (hs : s.step t = some s') : s'.Inv ∧ s.Grows s' := by
  cases t with
  | borrow id fresh aborted => exact h.borrow hs
  | connected a => exact h.settle hs
  | failed a => exact h.settle hs
  | stop id => exact h.stop hs
  | resume id => exact h.resume hs
  | finish id outcome => exact h.finish hs

theorem empty_inv : empty.Inv := by
  refine ⟨fun a => .unused rfl rfl ?_, rfl⟩
  intro id b hb
  cases hb

/-! ## Progress -/

theorem release_of_held (h : s.Inv) (hid : s.borrows.get? id = some b)
    (hb : (∃ stop, b = .received a stop) ∨ b = .operating a) (destroyed : Bool) :
    ∃ s' acquisition, s.release id a destroyed = some s' ∧ s'.acquisitions.get? a = some acquisition ∧
      acquisition.released = 1 := by
  have hget := ((h.custody a).of_held hid hb).1
  exact ⟨_, ⟨none, true, true, 1, destroyed⟩, by rw [BorrowPool.release, hget, Option.map_some], by simp, rfl⟩

theorem finish_of_operating (h : s.Inv) (hid : s.borrows.get? id = some (.operating a)) (outcome : BorrowOutcome) :
    ∃ s' acquisition, s.finish id outcome = some s' ∧ s'.acquisitions.get? a = some acquisition ∧
      acquisition.released = 1 := by
  obtain ⟨s', x, hs, hx⟩ := release_of_held h hid (.inr rfl) (outcome ≠ .value)
  exact ⟨s', x, by rw [BorrowPool.finish, hid]; exact hs, hx⟩

theorem held_released (h : s.Inv) (hid : s.borrows.get? id = some b)
    (hb : (∃ stop, b = .received a stop) ∨ b = .operating a) (outcome : BorrowOutcome) :
    ∃ turns s' acquisition, turns.Sublist [BorrowTurn.resume id, .finish id outcome] ∧ run turns s = some s' ∧
      s'.acquisitions.get? a = some acquisition ∧ acquisition.released = 1 := by
  obtain ⟨stop, rfl⟩ | rfl := hb
  · cases stop with
    | true =>
      obtain ⟨s', x, hs, hx, hone⟩ := release_of_held h hid (.inl ⟨_, rfl⟩) false
      exact ⟨[.resume id], s', x, by simp, by simp [run, BorrowPool.step, BorrowPool.resume, hid, hs], hx, hone⟩
    | false =>
      have hstep : s.resume id = some { s with borrows := s.borrows.put id (.operating a) } := by
        simp [BorrowPool.resume, hid]
      have hid' : (s.borrows.put id (.operating a)).get? id = some (.operating a) := by simp
      obtain ⟨s', x, hs, hx, hone⟩ := finish_of_operating (h.resume hstep).1 hid' outcome
      exact ⟨[.resume id, .finish id outcome], s', x, List.Sublist.refl _, by simp [run, BorrowPool.step, hstep, hs],
        hx, hone⟩
  · obtain ⟨s', x, hs, hx, hone⟩ := finish_of_operating h hid outcome
    exact ⟨[.finish id outcome], s', x, by simp, by simp [run, BorrowPool.step, hs], hx, hone⟩

end BorrowPool

theorem Borrowing.inv {peak : Nat} {s : BorrowPool} (h : Borrowing peak s) : s.Inv ∧ s.outstanding ≤ peak := by
  induction h with
  | start => exact ⟨BorrowPool.empty_inv, Nat.le_refl 0⟩
  | turn h hs ih =>
    obtain ⟨hinv, hgrows⟩ := ih.1.step hs
    refine ⟨hinv, ?_⟩
    cases hgrows with
    | inl hle => exact le_max_of_le_left (hle.trans ih.2)
    | inr hnil =>
      -- With no connect parked, a borrow waits for each connect.
      rw [hinv.balance, hnil, List.length_nil, Nat.zero_add]
      exact le_max_right _ _

end Workhorse
