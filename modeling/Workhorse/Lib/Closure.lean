import Mathlib.Data.List.Dedup
import Mathlib.Logic.Relation

/-!
# Closure of a successor function

The elements that a list of seeds reaches through a successor function, by rounds that each add what
the last one found. With as many rounds as there are elements outside the seeds, the result is the
reflexive and transitive closure.
-/

namespace Closure

variable {α : Type} [DecidableEq α]

def fresh (next : α → List α) (seen : List α) : List α := ((seen.flatMap next).filter fun x => !seen.contains x).dedup

/-- At most `fuel` rounds from `seen`. -/
def closure (next : α → List α) : Nat → List α → List α
  | 0, seen => seen
  | fuel + 1, seen =>
    match fresh next seen with
    | [] => seen
    | x :: xs => closure next fuel (seen ++ x :: xs)

def Step (next : α → List α) (a b : α) : Prop := b ∈ next a

variable {next : α → List α}

theorem mem_fresh {seen : List α} {x : α} : x ∈ fresh next seen ↔ (∃ a ∈ seen, x ∈ next a) ∧ x ∉ seen := by
  simp [fresh]

theorem subset_closure (fuel : Nat) (seen : List α) : seen ⊆ closure next fuel seen := by
  induction fuel generalizing seen with
  | zero => exact fun _ h => h
  | succ fuel ih =>
    unfold closure
    split
    · exact fun _ h => h
    · rename_i x xs _
      exact fun a ha => ih (seen ++ x :: xs) (List.mem_append_left _ ha)

theorem closure_sound (fuel : Nat) (seen : List α) {x : α} (hx : x ∈ closure next fuel seen) :
    ∃ a ∈ seen, Relation.ReflTransGen (Step next) a x := by
  induction fuel generalizing seen with
  | zero => exact ⟨x, hx, .refl⟩
  | succ fuel ih =>
    unfold closure at hx
    split at hx
    · exact ⟨x, hx, .refl⟩
    · rename_i y ys hf
      obtain ⟨a, ha, hax⟩ := ih _ hx
      rcases List.mem_append.mp ha with ha | ha
      · exact ⟨a, ha, hax⟩
      · -- an element that this round added follows one that was there before
        obtain ⟨⟨b, hb, hba⟩, -⟩ := mem_fresh.mp (hf ▸ ha)
        exact ⟨b, hb, .head hba hax⟩

theorem unseen_lt {all seen : List α} {x : α} (xs : List α) (hall : x ∈ all) (hx : x ∉ seen) :
    (all.filter fun z => !(seen ++ x :: xs).contains z).length < (all.filter fun z => !seen.contains z).length := by
  have hsplit : (all.filter fun z => !(seen ++ x :: xs).contains z) =
      (all.filter fun z => !seen.contains z).filter fun z => !(x :: xs).contains z := by
    rw [List.filter_filter]
    refine List.filter_congr fun z _ => ?_
    by_cases hz : z ∈ seen <;> by_cases hz' : z ∈ x :: xs <;> simp_all
  rw [hsplit, List.length_filter_lt_length_iff_exists]
  exact ⟨x, by simp [hall, hx], by simp⟩

/-- Enough fuel closes the result; `all` bounds what the successor function can return. -/
theorem closure_closed {all : List α} (hall : ∀ a, ∀ b ∈ next a, b ∈ all) (fuel : Nat)
    (seen : List α) (hfuel : (all.filter fun z => !seen.contains z).length ≤ fuel) {a b : α}
    (ha : a ∈ closure next fuel seen) (hab : b ∈ next a) : b ∈ closure next fuel seen := by
  induction fuel generalizing seen with
  | zero =>
    simp only [closure] at ha ⊢
    by_contra hb
    have hmem : b ∈ all.filter fun z => !seen.contains z := by simp [hall a b hab, hb]
    have := List.length_pos_of_mem hmem
    omega
  | succ fuel ih =>
    unfold closure at ha ⊢
    split at ha
    · rename_i hf
      by_contra hb
      have : b ∈ fresh next seen := mem_fresh.mpr ⟨⟨a, ha, hab⟩, hb⟩
      rw [hf] at this
      cases this
    · rename_i x xs hf
      obtain ⟨⟨c, hc, hcx⟩, hx⟩ := mem_fresh.mp (hf ▸ (List.mem_cons_self : x ∈ x :: xs))
      refine ih _ ?_ ha
      have := unseen_lt xs (hall c x hcx) hx
      omega

theorem mem_closure_iff {all : List α} (hall : ∀ a, ∀ b ∈ next a, b ∈ all) {seen : List α} {x : α} :
    x ∈ closure next all.length seen ↔ ∃ a ∈ seen, Relation.ReflTransGen (Step next) a x := by
  refine ⟨closure_sound _ seen, ?_⟩
  rintro ⟨a, ha, hax⟩
  induction hax with
  | refl => exact subset_closure _ _ ha
  | tail _ hstep ih => exact closure_closed hall _ _ (List.length_filter_le ..) ih hstep

theorem nodup_closure (fuel : Nat) {seen : List α} (h : seen.Nodup) : (closure next fuel seen).Nodup := by
  induction fuel generalizing seen with
  | zero => exact h
  | succ fuel ih =>
    unfold closure
    split
    · exact h
    · rename_i x xs hf
      have hnd : (x :: xs).Nodup := hf ▸ List.nodup_dedup _
      refine ih (List.nodup_append.mpr ⟨h, hnd, ?_⟩)
      rintro a ha b hb rfl
      exact (mem_fresh.mp (hf ▸ hb)).2 ha

end Closure
