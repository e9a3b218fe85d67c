/-!
# Transactions

A transaction reads and rewrites a state and may raise an error, and an error undoes everything it
wrote: `StateT σ (Except ε)`. `Ensures x s Q` says that whenever `x` returns from the state `s`, its
value and the state after it satisfy `Q`. The rules turn it into the conditions on the leaves of a
program, one construct at a time; loops take an invariant.
-/

namespace Transaction

variable {σ ε α β : Type} {x : StateT σ (Except ε) α} {xs : List α}

/-- Whenever the transaction returns from `s`, the value and the state after satisfy `Q`. -/
def Ensures (x : StateT σ (Except ε) α) (s : σ) (Q : α → σ → Prop) : Prop := ∀ a s', x s = .ok (a, s') → Q a s'

variable {s : σ} {Q : α → σ → Prop}

/-! ## Constructs -/

theorem bind_eq_ok {f : α → StateT σ (Except ε) β} {s' : σ} {b : β} :
    (x >>= f) s = .ok (b, s') ↔ ∃ a s₁, x s = .ok (a, s₁) ∧ f a s₁ = .ok (b, s') := by
  change Except.bind (x s) (fun p => f p.1 p.2) = .ok (b, s') ↔ _
  rcases x s with e | ⟨a, s₁⟩
  · simp [Except.bind]
  · constructor
    · intro h
      exact ⟨a, s₁, rfl, h⟩
    · rintro ⟨a', s₁', h, h'⟩
      cases h
      exact h'

theorem ensures_ok {a : α} {s' : σ} (h : x s = .ok (a, s')) : Ensures x s Q ↔ Q a s' := by
  constructor
  · exact fun hQ => hQ a s' h
  · intro hQ a' s'' h'
    rw [h] at h'
    cases h'
    exact hQ

@[simp] theorem ensures_pure {a : α} : Ensures (pure a : StateT σ (Except ε) α) s Q ↔ Q a s := ensures_ok rfl

@[simp] theorem ensures_throw {e : ε} : Ensures (throw e : StateT σ (Except ε) α) s Q ↔ True :=
  iff_true_intro fun a s' h => by
    change (Except.error e : Except ε (α × σ)) = .ok (a, s') at h
    cases h

@[simp] theorem ensures_bind {x : StateT σ (Except ε) β} {f : β → StateT σ (Except ε) α} :
    Ensures (x >>= f) s Q ↔ Ensures x s fun b s₁ => Ensures (f b) s₁ Q := by
  constructor
  · exact fun h b s₁ hx a s' hf => h a s' (bind_eq_ok.mpr ⟨b, s₁, hx, hf⟩)
  · intro h a s' hb
    obtain ⟨b, s₁, hx, hf⟩ := bind_eq_ok.mp hb
    exact h b s₁ hx a s' hf

@[simp] theorem ensures_map {x : StateT σ (Except ε) β} {f : β → α} :
    Ensures (f <$> x) s Q ↔ Ensures x s fun b s' => Q (f b) s' := by
  rw [map_eq_pure_bind, ensures_bind]
  simp only [ensures_pure]

@[simp] theorem ensures_ite {c : Prop} [Decidable c] {x y : StateT σ (Except ε) α} :
    Ensures (if c then x else y) s Q ↔ (c → Ensures x s Q) ∧ (¬c → Ensures y s Q) := by
  by_cases hc : c <;> simp [hc]

theorem Ensures.mono {R : α → σ → Prop} (hx : Ensures x s R) (h : ∀ a s', R a s' → Q a s') : Ensures x s Q :=
  fun a s' hs => h a s' (hx a s' hs)

/-! ## Loops -/

theorem Ensures.foldlM (I : β → σ → Prop) {f : β → α → StateT σ (Except ε) β}
    (hf : ∀ b, ∀ x ∈ xs, ∀ t, I b t → Ensures (f b x) t I) {b : β} (hb : I b s) : Ensures (xs.foldlM f b) s I := by
  induction xs generalizing b s with
  | nil => simpa using hb
  | cons x xs ih =>
    rw [List.foldlM_cons, ensures_bind]
    refine (hf b x (by simp) s hb).mono fun b' s' hb' => ?_
    exact ih (fun b y hy => hf b y (by simp [hy])) hb'

theorem Ensures.forM (I : σ → Prop) {f : α → StateT σ (Except ε) PUnit}
    (hf : ∀ x ∈ xs, ∀ t, I t → Ensures (f x) t fun _ => I) (hs : I s) : Ensures (xs.forM f) s fun _ => I := by
  induction xs generalizing s with
  | nil => simpa [List.forM] using hs
  | cons x xs ih =>
    change Ensures (f x >>= fun _ => xs.forM f) s _
    rw [ensures_bind]
    refine (hf x (by simp) s hs).mono fun _ s' hs' => ?_
    exact ih (fun y hy => hf y (by simp [hy])) hs'

/-! ## Inversion of loops that return -/

theorem foldlM_ok {f : β → α → StateT σ (Except ε) β} {b b' : β} {s' : σ}
    (h : xs.foldlM f b s = .ok (b', s')) {x : α} (hx : x ∈ xs) : ∃ c t r, f c x t = .ok r := by
  induction xs generalizing b s with
  | nil => cases hx
  | cons y ys ih =>
    rw [List.foldlM_cons] at h
    obtain ⟨c, t, hy, h⟩ := bind_eq_ok.mp h
    rcases List.mem_cons.mp hx with rfl | hx
    · exact ⟨b, s, _, hy⟩
    · exact ih h hx

theorem forM_ok {f : α → StateT σ (Except ε) PUnit} {r : PUnit × σ}
    (h : xs.forM f s = .ok r) {x : α} (hx : x ∈ xs) : ∃ t r, f x t = .ok r := by
  induction xs generalizing s with
  | nil => cases hx
  | cons y ys ih =>
    change (f y >>= fun _ => ys.forM f) s = .ok (r.1, r.2) at h
    obtain ⟨c, t, hy, h⟩ := bind_eq_ok.mp h
    rcases List.mem_cons.mp hx with rfl | hx
    · exact ⟨s, _, hy⟩
    · exact ih h hx

end Transaction
