import Mathlib.Data.List.Lex
import Mathlib.Data.List.Sort

/-!
# Sorting entries by their keys

Entries with distinct keys have one sorted order, so sorting them forgets the order that they had.
-/

namespace SortByKey

variable {κ α β : Type} [LinearOrder κ]

theorem insertionSort_eq_of_perm {entries entries' : List (κ × α)} (h : entries.Perm entries')
    (hkeys : (entries.map Prod.fst).Nodup) :
    entries.insertionSort (fun a b => a.1 ≤ b.1) = entries'.insertionSort fun a b => a.1 ≤ b.1 := by
  refine List.Perm.eq_of_pairwise (fun a b ha hb hab hba => ?_) (List.pairwise_insertionSort _ _)
    (List.pairwise_insertionSort _ _)
    ((List.perm_insertionSort _ _).trans (h.trans (List.perm_insertionSort _ _).symm))
  have hb' := (List.perm_insertionSort _ _).mem_iff.mp hb
  exact List.inj_on_of_nodup_map hkeys ((List.perm_insertionSort _ _).mem_iff.mp ha) (h.mem_iff.mpr hb')
    (le_antisymm hab hba)

theorem map_insertionSort (f : α → β) (entries : List (κ × α)) :
    (entries.insertionSort fun a b => a.1 ≤ b.1).map (Prod.map id f) =
      (entries.map (Prod.map id f)).insertionSort fun a b => a.1 ≤ b.1 :=
  List.map_insertionSort _ _ _ _ (fun _ _ _ _ => Iff.rfl)

end SortByKey
