import Workhorse.Lib.Returns
import Workhorse.Schema.Db

/-!
# Functions that return

What the primitives of a session return.
-/

namespace Workhorse

open Transaction

variable {s : Session} {α : Type}

theorem returns_ensure {c : Bool} {m : String} {Q : Unit → Session → Prop} :
    Returns (ensure c m) s Q ↔ c = true ∧ Q () s := by
  constructor
  · rintro ⟨a, s', h, hQ⟩
    obtain ⟨hc, hx⟩ := ensure_ok.mp h
    cases hx
    exact ⟨hc, hQ⟩
  · rintro ⟨hc, hQ⟩
    exact ⟨(), s, ensure_ok.mpr ⟨hc, rfl⟩, hQ⟩

theorem returns_database {Q : Db → Session → Prop} : Returns database s Q ↔ Q s.db s := returns_ok rfl

theorem returns_write {f : Db → Db} {Q : Unit → Session → Prop} : Returns (write f) s Q ↔ Q () (s.update f) :=
  returns_ok rfl

theorem returns_perform {f : Session → α × Session} {Q : α → Session → Prop} :
    Returns (perform f) s Q ↔ Q (f s).1 (f s).2 := returns_ok rfl

theorem returns_clockTimestamp {Q : Time → Session → Prop} : Returns clockTimestamp s Q ↔ Q s.now s.ask :=
  returns_ok rfl

theorem returns_nextReadySequence {Q : Nat → Session → Prop} :
    Returns nextReadySequence s Q ↔ Q s.nextReadySequence.1 s.nextReadySequence.2 := returns_ok rfl

theorem returns_tryLock {n : LockName} {Q : Bool → Session → Prop} :
    Returns (tryLock n) s Q ↔ Q (s.host.free s.asked n) s.ask := returns_ok rfl

end Workhorse
