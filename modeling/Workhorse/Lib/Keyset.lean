import Mathlib.Data.List.Sort

/-!
# Pages by key

Rows in descending order of a key. A page goes on after the key of a row, or ends before it.
-/

namespace Keyset

variable {α κ : Type} [LinearOrder κ] (key : α → κ)

/-- `ORDER BY key DESC`. -/
def sortDesc (rows : List α) : List α := rows.insertionSort fun a b => key b ≤ key a

/-- `ORDER BY key ASC`. -/
def sortAsc (rows : List α) : List α := rows.insertionSort fun a b => key a ≤ key b

abbrev Descending (rows : List α) : Prop := rows.Pairwise fun a b => key b < key a

def chunk (listing : List α) (size i : Nat) : List α := (listing.drop (i * size)).take size

variable {key} {rows listing before after : List α} {a : α} {size i : Nat}

theorem Descending.key_inj (h : Descending key rows) {a b : α} (ha : a ∈ rows) (hb : b ∈ rows)
    (heq : key a = key b) : a = b := by
  induction rows with
  | nil => cases ha
  | cons first rows ih =>
    obtain ⟨hfirst, hrows⟩ := List.pairwise_cons.mp h
    rcases List.mem_cons.mp ha with rfl | hrest
    · rcases List.mem_cons.mp hb with rfl | hb
      · rfl
      · exact absurd heq (hfirst b hb).ne'
    · rcases List.mem_cons.mp hb with rfl | hb
      · exact absurd heq (hfirst a hrest).ne
      · exact ih hrows hrest hb

theorem sortDesc_eq (h : Descending key listing) (hperm : listing.Perm rows) : sortDesc key rows = listing := by
  have hsorted : (sortDesc key rows).Pairwise fun a b => key b ≤ key a := List.pairwise_insertionSort _ rows
  have hrows : (sortDesc key rows).Perm listing := (List.perm_insertionSort _ rows).trans hperm.symm
  refine hrows.eq_of_pairwise (fun a b ha hb hle hge => ?_) hsorted (h.imp fun hlt => hlt.le)
  exact h.key_inj (hrows.mem_iff.mp ha) hb (le_antisymm hge hle)

theorem sortAsc_eq (h : Descending key listing) (hperm : listing.Perm rows) : sortAsc key rows = listing.reverse := by
  have hsorted : (sortAsc key rows).Pairwise fun a b => key a ≤ key b := List.pairwise_insertionSort _ rows
  have hrows : (sortAsc key rows).Perm listing.reverse :=
    (List.perm_insertionSort _ rows).trans (hperm.symm.trans (List.reverse_perm listing).symm)
  have hreverse : listing.reverse.Pairwise fun a b => key a ≤ key b :=
    List.pairwise_reverse.mpr (h.imp fun hlt => hlt.le)
  refine hrows.eq_of_pairwise (fun a b ha hb hle hge => ?_) hsorted hreverse
  exact h.key_inj (List.mem_reverse.mp (hrows.mem_iff.mp ha)) (List.mem_reverse.mp hb) (le_antisymm hle hge)

theorem descending_sortDesc (hinj : rows.Pairwise fun a b => key a ≠ key b) : Descending key (sortDesc key rows) := by
  have hsorted : (sortDesc key rows).Pairwise fun a b => key b ≤ key a := List.pairwise_insertionSort _ rows
  have hne : (sortDesc key rows).Pairwise fun a b => key a ≠ key b :=
    ((List.perm_insertionSort _ rows).pairwise_iff fun h => Ne.symm h).mpr hinj
  exact hsorted.imp₂ (fun _ _ hle hne => lt_of_le_of_ne hle (Ne.symm hne)) hne

theorem filter_lt (h : Descending key (before ++ a :: after)) :
    (before ++ a :: after).filter (fun b => key b < key a) = after := by
  obtain ⟨-, hafter, hbefore⟩ := List.pairwise_append.mp h
  obtain ⟨hafter, -⟩ := List.pairwise_cons.mp hafter
  have hnone : before.filter (fun b => key b < key a) = [] :=
    List.filter_eq_nil_iff.mpr fun b hb => by simpa using (hbefore b hb a (by simp)).le
  have hall : after.filter (fun b => key b < key a) = after :=
    List.filter_eq_self.mpr fun b hb => by simpa using hafter b hb
  simp [hnone, hall]

/-- The rows above a key that lies between two neighbours. -/
theorem filter_gt (h : Descending key (before ++ a :: after)) {k : κ} (hk : key a ≤ k)
    (hbefore : ∀ b ∈ before, k < key b) : (before ++ a :: after).filter (fun b => k < key b) = before := by
  obtain ⟨-, hafter, -⟩ := List.pairwise_append.mp h
  obtain ⟨hafter, -⟩ := List.pairwise_cons.mp hafter
  have hall : before.filter (fun b => k < key b) = before :=
    List.filter_eq_self.mpr fun b hb => by simpa using hbefore b hb
  have hnone : after.filter (fun b => k < key b) = [] :=
    List.filter_eq_nil_iff.mpr fun b hb => by simpa using ((hafter b hb).trans_le hk).le
  simp [hnone, hall, hk]

/-! ## Pages -/

theorem flatMap_chunk (listing : List α) (size n : Nat) :
    (List.range n).flatMap (chunk listing size) = listing.take (n * size) := by
  induction n with
  | zero => simp
  | succ n ih =>
    rw [List.range_succ, List.flatMap_append, ih, Nat.succ_mul, List.take_add]
    simp [chunk]

end Keyset
