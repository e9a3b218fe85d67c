import Workhorse.Lib.Transaction

/-!
# Transactions that return

`Ensures` says nothing of a transaction that raises. `Returns x s Q` says that `x` returns from the
state `s`, and that its value and the state after it satisfy `Q`. A loop whose passes each return
keeping an invariant returns keeping it, with what it has worked through so far.
-/

namespace Transaction

variable {σ ε α β : Type}

/-- The transaction returns from `s`, and the value and the state after satisfy `Q`. -/
def Returns (x : StateT σ (Except ε) α) (s : σ) (Q : α → σ → Prop) : Prop := ∃ a s', x s = .ok (a, s') ∧ Q a s'

variable {s : σ} {Q : α → σ → Prop}

theorem returns_ok {x : StateT σ (Except ε) α} {a : α} {s' : σ} (h : x s = .ok (a, s')) : Returns x s Q ↔ Q a s' := by
  constructor
  · rintro ⟨a', s'', h', hQ⟩
    rw [h] at h'
    cases h'
    exact hQ
  · intro hQ
    exact ⟨a, s', h, hQ⟩

theorem returns_pure {a : α} : Returns (pure a : StateT σ (Except ε) α) s Q ↔ Q a s := returns_ok rfl

theorem returns_bind {x : StateT σ (Except ε) β} {f : β → StateT σ (Except ε) α} :
    Returns (x >>= f) s Q ↔ Returns x s fun b s₁ => Returns (f b) s₁ Q := by
  constructor
  · rintro ⟨a, s', h, hQ⟩
    obtain ⟨b, s₁, hx, hf⟩ := bind_eq_ok.mp h
    exact ⟨b, s₁, hx, a, s', hf, hQ⟩
  · rintro ⟨b, s₁, hx, a, s', hf, hQ⟩
    exact ⟨a, s', bind_eq_ok.mpr ⟨b, s₁, hx, hf⟩, hQ⟩

theorem returns_ite {c : Prop} [Decidable c] {x y : StateT σ (Except ε) α} :
    Returns (if c then x else y) s Q ↔ (c → Returns x s Q) ∧ (¬c → Returns y s Q) := by
  by_cases hc : c <;> simp [hc]

theorem Returns.mono {x : StateT σ (Except ε) α} {R : α → σ → Prop} (hx : Returns x s R)
    (h : ∀ a s', R a s' → Q a s') : Returns x s Q := by
  obtain ⟨a, s', hs, hR⟩ := hx
  exact ⟨a, s', hs, h a s' hR⟩

/-! ## Loops

The invariant of a loop also speaks of the elements it has worked through, in order. -/

theorem Returns.foldlM (I : List α → β → σ → Prop) {f : β → α → StateT σ (Except ε) β} {xs : List α}
    (hf : ∀ done b, ∀ x ∈ xs, ∀ t, I done b t → Returns (f b x) t (I (done ++ [x]))) {b : β}
    (done : List α) (hb : I done b s) : Returns (xs.foldlM f b) s (I (done ++ xs)) := by
  induction xs generalizing b s done with
  | nil => simpa [returns_pure] using hb
  | cons x xs ih =>
    rw [List.foldlM_cons, returns_bind]
    refine (hf done b x (by simp) s hb).mono fun b' s' hb' => ?_
    have h := ih (fun done b y hy => hf done b y (by simp [hy])) (done ++ [x]) hb'
    simpa using h

theorem Returns.forM (I : List α → σ → Prop) {f : α → StateT σ (Except ε) PUnit} {xs : List α}
    (hf : ∀ done, ∀ x ∈ xs, ∀ t, I done t → Returns (f x) t fun _ => I (done ++ [x])) (done : List α)
    (hs : I done s) : Returns (xs.forM f) s fun _ => I (done ++ xs) := by
  induction xs generalizing s done with
  | nil => simpa [List.forM, returns_pure] using hs
  | cons x xs ih =>
    change Returns (f x >>= fun _ => xs.forM f) s _
    rw [returns_bind]
    refine (hf done x (by simp) s hs).mono fun _ s' hs' => ?_
    have h := ih (fun done y hy => hf done y (by simp [hy])) (done ++ [x]) hs'
    simpa using h

end Transaction
