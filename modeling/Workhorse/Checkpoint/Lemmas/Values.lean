import Workhorse.Checkpoint.Canonical

/-!
# Values and their sorted forms

Induction over values, the functions on lists of values as maps, and that sorting the keys identifies exactly the values
that are equal up to key order.
-/

namespace Workhorse

namespace JsValue

variable {ms ns : List (Utf16 × JsValue)}

/-- Induction over values, with the items of an array and the members of an object as lists. -/
theorem induct {P : JsValue → Prop} (null : P .null) (bool : ∀ b, P (.bool b)) (number : ∀ token, P (.number token))
    (string : ∀ s, P (.string s)) (array : ∀ items, (∀ v ∈ items, P v) → P (.array items))
    (object : ∀ members, (∀ m ∈ members, P m.2) → P (.object members)) (v : JsValue) : P v := by
  refine @JsValue.rec P (fun items => ∀ v ∈ items, P v) (fun members => ∀ m ∈ members, P m.2) (fun m => P m.2)
    null bool number string array object ?_ ?_ ?_ ?_ (fun _ _ h => h) v
  · simp
  · intro v items hv hitems
    simpa using ⟨hv, hitems⟩
  · simp
  · intro m members hm hmembers
    exact List.forall_mem_cons.mpr ⟨hm, hmembers⟩

theorem stringifyItems_eq (items : List JsValue) : stringifyItems items = items.map stringify := by
  induction items with
  | nil => rfl
  | cons v items ih => simp [stringifyItems, ih]

theorem stringifyMembers_eq (members : List (Utf16 × JsValue)) :
    stringifyMembers members = members.map (Prod.map id stringify) := by
  induction members with
  | nil => rfl
  | cons m members ih =>
    obtain ⟨key, v⟩ := m
    simp [stringifyMembers, ih]

theorem sortItems_eq (items : List JsValue) : sortItems items = items.map sortKeys := by
  induction items with
  | nil => rfl
  | cons v items ih => simp [sortItems, ih]

theorem sortMembers_eq (members : List (Utf16 × JsValue)) :
    sortMembers members = members.map (Prod.map id sortKeys) := by
  induction members with
  | nil => rfl
  | cons m members ih =>
    obtain ⟨key, v⟩ := m
    simp [sortMembers, ih]

theorem sameItems_iff {as bs : List JsValue} : SameItems as bs ↔ List.Forall₂ Same as bs := by
  induction as generalizing bs with
  | nil => cases bs <;> simp [SameItems]
  | cons a as ih => cases bs <;> simp [SameItems, ih]

theorem sameMembers_iff : SameMembers ms ns ↔ ∀ m ∈ ms, ∃ w, (m.1, w) ∈ ns ∧ Same m.2 w := by
  induction ms with
  | nil => simp [SameMembers]
  | cons m ms ih => simp [SameMembers, ih]

theorem mem_partsItems {v : JsValue} {items : List JsValue} : v ∈ partsItems items ↔ ∃ w ∈ items, v ∈ w.parts := by
  induction items with
  | nil => simp [partsItems]
  | cons w items ih => simp [partsItems, ih]

theorem mem_partsMembers {v : JsValue} {members : List (Utf16 × JsValue)} :
    v ∈ partsMembers members ↔ ∃ m ∈ members, v ∈ m.2.parts := by
  induction members with
  | nil => simp [partsMembers]
  | cons m members ih => simp [partsMembers, ih]

theorem parts_self (v : JsValue) : v ∈ v.parts := by
  cases v <;> simp [parts]

section Parts

/-! What holds of the parts of a value holds of the parts of an item and of a member. -/

variable {items : List JsValue} {members : List (Utf16 × JsValue)} {v w : JsValue} {m : Utf16 × JsValue}

theorem parts_item (hw : w ∈ items) (h : v ∈ w.parts) : v ∈ (array items).parts :=
  List.mem_cons_of_mem _ (mem_partsItems.mpr ⟨w, hw, h⟩)

theorem parts_member (hm : m ∈ members) (h : v ∈ m.2.parts) : v ∈ (object members).parts :=
  List.mem_cons_of_mem _ (mem_partsMembers.mpr ⟨m, hm, h⟩)

theorem Distinct.item (h : (array items).Distinct) (hw : w ∈ items) : w.Distinct :=
  fun members hmem => h members (parts_item hw hmem)

theorem Distinct.member (h : (object members).Distinct) (hm : m ∈ members) : m.2.Distinct :=
  fun members hmem => h members (parts_member hm hmem)

theorem Distinct.keys (h : (object members).Distinct) : (members.map Prod.fst).Nodup := h members (parts_self _)

variable {write : Utf16 → Utf16} {checkString : Utf16 → Except String Utf16}

theorem Canonical.item (h : (array items).Canonical write) (hw : w ∈ items) : w.Canonical write :=
  fun token hmem => h token (parts_item hw hmem)

theorem Canonical.member (h : (object members).Canonical write) (hm : m ∈ members) : m.2.Canonical write :=
  fun token hmem => h token (parts_member hm hmem)

theorem Accepted.item (h : (array items).Accepted checkString) (hw : w ∈ items) : w.Accepted checkString :=
  ⟨fun s hs => h.strings s (parts_item hw hs), fun members hmem => h.keys members (parts_item hw hmem)⟩

theorem Accepted.member (h : (object members).Accepted checkString) (hm : m ∈ members) : m.2.Accepted checkString :=
  ⟨fun s hs => h.strings s (parts_member hm hs), fun members hmem => h.keys members (parts_member hm hmem)⟩

theorem Accepted.key (h : (object members).Accepted checkString) (hm : m ∈ members) : checkString m.1 = .ok m.1 :=
  h.keys members (parts_self _) m hm

end Parts

/-! ## Sorted values -/

theorem keys_sortMembers (members : List (Utf16 × JsValue)) :
    (members.map (Prod.map id sortKeys)).map Prod.fst = members.map Prod.fst := by
  simp [Function.comp_def]

theorem perm_of_subset (hkeys : (ms.map Prod.fst).Nodup) (hlen : ms.length = ns.length) (h : ms ⊆ ns) : ms.Perm ns :=
  (List.subperm_of_subset (List.Nodup.of_map _ hkeys) h).perm_of_length_le hlen.ge

theorem sort_eq_iff (hkeys : (ms.map Prod.fst).Nodup) :
    (ms.insertionSort fun a b => a.1 ≤ b.1) = (ns.insertionSort fun a b => a.1 ≤ b.1) ↔ ms.Perm ns := by
  refine ⟨fun h => ?_, fun h => SortByKey.insertionSort_eq_of_perm h hkeys⟩
  exact (List.perm_insertionSort _ ms).symm.trans (h ▸ List.perm_insertionSort _ ns)

theorem map_eq_map_iff {α β : Type} {f : α → β} {R : α → α → Prop} {as bs : List α}
    (h : ∀ a ∈ as, ∀ b ∈ bs, (f a = f b ↔ R a b)) : as.map f = bs.map f ↔ List.Forall₂ R as bs := by
  induction as generalizing bs with
  | nil => cases bs <;> simp
  | cons a as ih =>
    cases bs with
    | nil => simp
    | cons b bs =>
      simp only [List.forall_mem_cons] at h
      simp [(h.1).1, ih fun a ha => (h.2 a ha).2]

theorem sortKeys_eq_iff (u : JsValue) :
    ∀ {v : JsValue}, u.Distinct → v.Distinct → (u.sortKeys = v.sortKeys ↔ Same u v) := by
  induction u using JsValue.induct with
  | null | bool _ | number _ | string _ =>
    intro v _ _
    cases v <;> simp [sortKeys, Same]
  | array items ih =>
    intro v hu hv
    cases v with
    | array items' =>
      simp only [sortKeys, Same, sortItems_eq, sameItems_iff, JsValue.array.injEq]
      exact map_eq_map_iff fun a ha b hb => ih a ha (hu.item ha) (hv.item hb)
    | null | bool | number | string | object => simp [sortKeys, Same]
  | object members ih =>
    intro v hu hv
    cases v with
    | object members' =>
      simp only [sortKeys, Same, sortMembers_eq, sameMembers_iff, JsValue.object.injEq]
      rw [sort_eq_iff (by simpa only [keys_sortMembers] using hu.keys)]
      constructor
      · refine fun hperm => ⟨by simpa using hperm.length_eq, fun m hm => ?_⟩
        obtain ⟨n, hn, hsame⟩ := List.mem_map.mp (hperm.mem_iff.mp (List.mem_map_of_mem hm))
        obtain ⟨hkey, hvalue⟩ := Prod.ext_iff.mp hsame
        refine ⟨n.2, ?_, (ih m hm (hu.member hm) (hv.member hn)).mp hvalue.symm⟩
        have hkey : n.1 = m.1 := hkey
        exact hkey ▸ hn
      · refine fun h => perm_of_subset (by simpa only [keys_sortMembers] using hu.keys) (by simpa using h.1) ?_
        intro m' hm'
        obtain ⟨m, hm, rfl⟩ := List.mem_map.mp hm'
        obtain ⟨w, hw, hsame⟩ := h.2 m hm
        have hvalue := (ih m hm (hu.member hm) (hv.member hw)).mpr hsame
        exact List.mem_map.mpr ⟨_, hw, Prod.ext rfl hvalue.symm⟩
    | null | bool | number | string | array => simp [sortKeys, Same]

end JsValue

end Workhorse
