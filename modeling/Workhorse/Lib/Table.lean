import Mathlib.Data.Finset.Card
import Mathlib.Data.List.Sort

/-!
# Tables with a primary key

A finite table is a list of keyed rows in which no key occurs twice. The operations are the ones a
statement of a relational store performs: look a row up, write it, delete it, update or delete the
rows that match, count the rows that match. Each comes with the lookup that characterises it, so
that later proofs never unfold the list.
-/

/-- A finite table of rows `ν` under a primary key `κ`. -/
structure Table (κ ν : Type) where
  rows : List (κ × ν)
  nodup : (rows.map Prod.fst).Nodup

namespace Table

variable {κ ν : Type} [DecidableEq κ]

def empty : Table κ ν := ⟨[], List.nodup_nil⟩

instance : Inhabited (Table κ ν) := ⟨empty⟩

instance [DecidableEq ν] : DecidableEq (Table κ ν) := fun a b =>
  decidable_of_iff (a.rows = b.rows) ⟨fun h => by cases a; cases b; cases h; rfl, fun h => h ▸ rfl⟩

def get? (t : Table κ ν) (k : κ) : Option ν := t.rows.lookup k

def contains (t : Table κ ν) (k : κ) : Bool := (t.get? k).isSome

def filter (p : κ → ν → Bool) (t : Table κ ν) : Table κ ν :=
  ⟨t.rows.filter fun e => p e.1 e.2, t.nodup.sublist (List.filter_sublist.map _)⟩

def erase (t : Table κ ν) (k : κ) : Table κ ν := t.filter fun k' _ => k' ≠ k

def mapRows (f : κ → ν → ν) (t : Table κ ν) : Table κ ν :=
  ⟨t.rows.map fun e => (e.1, f e.1 e.2), by simpa [Function.comp_def] using t.nodup⟩

def modify (t : Table κ ν) (k : κ) (f : ν → ν) : Table κ ν := t.mapRows fun k' v => if k' = k then f v else v

/-- Write the row under a key: in place when the key is present, else as a new row. -/
def put (t : Table κ ν) (k : κ) (v : ν) : Table κ ν :=
  if h : k ∈ t.rows.map Prod.fst then t.modify k fun _ => v
  else ⟨(k, v) :: t.rows, List.nodup_cons.mpr ⟨h, t.nodup⟩⟩

def count (t : Table κ ν) (p : κ → ν → Bool) : Nat := t.rows.countP fun e => p e.1 e.2

def any (t : Table κ ν) (p : κ → ν → Bool) : Bool := t.rows.any fun e => p e.1 e.2

def select (t : Table κ ν) (p : κ → ν → Bool) : List (κ × ν) := t.rows.filter fun e => p e.1 e.2

def size (t : Table κ ν) : Nat := t.rows.length

/-! ## Lookups -/

variable {t : Table κ ν} {k k' : κ} {v v' : ν} {p : κ → ν → Bool}

theorem get?_eq_some_iff : t.get? k = some v ↔ (k, v) ∈ t.rows := by
  obtain ⟨rows, hnd⟩ := t
  simp only [get?]
  induction rows with
  | nil => simp
  | cons e es ih =>
    obtain ⟨k', v'⟩ := e
    simp only [List.map_cons, List.nodup_cons] at hnd
    rw [List.lookup_cons]
    by_cases hk : k = k'
    · subst hk
      have hno : ∀ w, (k, w) ∉ es := fun w hw => hnd.1 (List.mem_map_of_mem (f := Prod.fst) hw)
      simp [hno v, eq_comm]
    · have hne : (k == k') = false := beq_eq_false_iff_ne.mpr hk
      simp [hk, hne, ih hnd.2]

theorem get?_eq_none_iff : t.get? k = none ↔ ∀ v, (k, v) ∉ t.rows := by
  constructor
  · intro h v hv
    rw [get?_eq_some_iff.mpr hv] at h
    cases h
  · intro h
    rcases hg : t.get? k with _ | v
    · rfl
    · exact absurd (get?_eq_some_iff.mp hg) (h v)

@[simp] theorem get?_empty (k : κ) : (empty : Table κ ν).get? k = none := rfl

theorem contains_iff : t.contains k = true ↔ ∃ v, t.get? k = some v := by
  simp [contains, Option.isSome_iff_exists]

theorem not_contains_iff : t.contains k = false ↔ t.get? k = none := by
  simp [contains]

@[simp] theorem get?_filter (t : Table κ ν) (p : κ → ν → Bool) (k : κ) :
    (t.filter p).get? k = (t.get? k).filter (p k) := by
  apply Option.ext
  intro v
  rw [get?_eq_some_iff, Option.filter_eq_some_iff, get?_eq_some_iff]
  simp [filter]

@[simp] theorem get?_erase (t : Table κ ν) (k k' : κ) : (t.erase k).get? k' = if k' = k then none else t.get? k' := by
  unfold erase
  rw [get?_filter]
  by_cases h : k' = k
  · subst h
    cases t.get? k' <;> simp
  · cases hg : t.get? k' <;> simp [h]

@[simp] theorem get?_mapRows (t : Table κ ν) (f : κ → ν → ν) (k : κ) : (t.mapRows f).get? k = (t.get? k).map (f k) := by
  apply Option.ext
  intro v
  rw [get?_eq_some_iff, Option.map_eq_some_iff]
  simp only [mapRows, List.mem_map, Prod.mk.injEq, get?_eq_some_iff]
  constructor
  · rintro ⟨⟨k', w⟩, hm, rfl, rfl⟩
    exact ⟨w, hm, rfl⟩
  · rintro ⟨w, hm, rfl⟩
    exact ⟨(k, w), hm, rfl, rfl⟩

@[simp] theorem get?_modify (t : Table κ ν) (k k' : κ) (f : ν → ν) :
    (t.modify k f).get? k' = if k' = k then (t.get? k').map f else t.get? k' := by
  by_cases h : k' = k <;> simp [modify, h]

theorem mem_keys_iff : k ∈ t.rows.map Prod.fst ↔ ∃ v, t.get? k = some v := by
  simp [get?_eq_some_iff]

@[simp] theorem get?_put (t : Table κ ν) (k k' : κ) (v : ν) :
    (t.put k v).get? k' = if k' = k then some v else t.get? k' := by
  unfold put
  split
  · rename_i h
    obtain ⟨w, hw⟩ := mem_keys_iff.mp h
    rw [get?_modify]
    split
    · rename_i hk
      rw [hk, hw]
      rfl
    · rfl
  · simp only [get?, List.lookup_cons]
    by_cases hk : k' = k
    · simp [hk]
    · simp [hk, beq_eq_false_iff_ne.mpr hk]

theorem get?_put_self (t : Table κ ν) (k : κ) (v : ν) : (t.put k v).get? k = some v := by
  simp

theorem get?_put_cases (h : (t.put k v).get? k' = some v') : k' = k ∧ v' = v ∨ k' ≠ k ∧ t.get? k' = some v' := by
  rw [get?_put] at h
  split at h
  · rename_i hk
    exact .inl ⟨hk, (Option.some.inj h).symm⟩
  · rename_i hk
    exact .inr ⟨hk, h⟩

theorem get?_erase_eq_some (h : (t.erase k).get? k' = some v') : k' ≠ k ∧ t.get? k' = some v' := by
  rw [get?_erase] at h
  split at h
  · cases h
  · rename_i hk
    exact ⟨hk, h⟩

theorem pairwise_put {R : ν → ν → Prop}
    (hold : ∀ i j a b, i ≠ j → t.get? i = some a → t.get? j = some b → R a b)
    (hnew : ∀ j b, j ≠ k → t.get? j = some b → R v b ∧ R b v) :
    ∀ i j a b, i ≠ j → (t.put k v).get? i = some a → (t.put k v).get? j = some b → R a b := by
  intro i j a b hne ha hb
  rcases get?_put_cases ha with ⟨rfl, rfl⟩ | ⟨hi, ha'⟩ <;> rcases get?_put_cases hb with ⟨rfl, rfl⟩ | ⟨hj, hb'⟩
  · exact absurd rfl hne
  · exact (hnew j b hj hb').1
  · exact (hnew i a hi ha').2
  · exact hold i j a b hne ha' hb'

theorem pairwise_erase {R : ν → ν → Prop}
    (hold : ∀ i j a b, i ≠ j → t.get? i = some a → t.get? j = some b → R a b) :
    ∀ i j a b, i ≠ j → (t.erase k).get? i = some a → (t.erase k).get? j = some b → R a b :=
  fun i j a b hne ha hb => hold i j a b hne (get?_erase_eq_some ha).2 (get?_erase_eq_some hb).2

theorem get?_put_of_free (hk : t.get? k = none) (h : t.get? k' = some v') : (t.put k v).get? k' = some v' := by
  have hne : k' ≠ k := by
    rintro rfl
    rw [hk] at h
    cases h
  rw [get?_put, if_neg hne, h]

theorem get?_erase_put_of_free (hk : t.get? k = none) (h : t.get? k' = some v') :
    ((t.put k v).erase k).get? k' = some v' := by
  have hne : k' ≠ k := by
    rintro rfl
    rw [hk] at h
    cases h
  rw [get?_erase, if_neg hne, get?_put_of_free hk h]

@[simp] theorem contains_put (t : Table κ ν) (k k' : κ) (v : ν) :
    (t.put k v).contains k' = (decide (k' = k) || t.contains k') := by
  by_cases h : k' = k <;> simp [contains, h]

@[simp] theorem contains_erase (t : Table κ ν) (k k' : κ) :
    (t.erase k).contains k' = (!decide (k' = k) && t.contains k') := by
  by_cases h : k' = k <;> simp [contains, h]

@[simp] theorem contains_modify (t : Table κ ν) (k k' : κ) (f : ν → ν) :
    (t.modify k f).contains k' = t.contains k' := by
  by_cases h : k' = k <;> simp [contains, h]

@[simp] theorem contains_filter (t : Table κ ν) (p : κ → Bool) (k : κ) :
    (t.filter fun k _ => p k).contains k = (p k && t.contains k) := by
  cases h : p k <;> cases h' : t.get? k <;> simp [contains, Option.filter, h, h']

theorem contains_of_get? (h : t.get? k = some v) : t.contains k = true :=
  contains_iff.mpr ⟨v, h⟩

theorem mem_select : (k, v) ∈ t.select p ↔ t.get? k = some v ∧ p k v = true := by
  rw [get?_eq_some_iff]
  simp [select]

omit [DecidableEq κ] in
theorem nodup_select (t : Table κ ν) (p : κ → ν → Bool) : ((t.select p).map Prod.fst).Nodup :=
  t.nodup.sublist (List.filter_sublist.map _)

theorem any_iff : t.any p = true ↔ ∃ k v, t.get? k = some v ∧ p k v = true := by
  simp [any, get?_eq_some_iff]

theorem any_eq_false_iff : t.any p = false ↔ ∀ k v, t.get? k = some v → p k v = false := by
  simp [any, get?_eq_some_iff]

theorem any_congr {p q : κ → ν → Bool} (h : ∀ k v, t.get? k = some v → p k v = q k v) : t.any p = t.any q := by
  rw [Bool.eq_iff_iff, any_iff, any_iff]
  constructor
  · rintro ⟨k, v, hv, hp⟩
    exact ⟨k, v, hv, h k v hv ▸ hp⟩
  · rintro ⟨k, v, hv, hq⟩
    exact ⟨k, v, hv, h k v hv ▸ hq⟩

theorem mapRows_eq_self {f : κ → ν → ν} (h : ∀ k v, t.get? k = some v → f k v = v) : t.mapRows f = t := by
  have hrows : t.rows.map (fun e => (e.1, f e.1 e.2)) = t.rows := by
    refine (List.map_congr_left fun e he => ?_).trans (List.map_id t.rows)
    simp [h e.1 e.2 (get?_eq_some_iff.mpr he)]
  simp only [mapRows, hrows]

/-! ## Loops over rows -/

section Loops

variable {μ : Type} {rows : List (κ × μ)}

theorem get?_foldl_erase : (rows.foldl (fun t e => t.erase e.1) t).get? k =
    if k ∈ rows.map Prod.fst then none else t.get? k := by
  induction rows generalizing t with
  | nil => rfl
  | cons e rows ih =>
    rw [List.foldl_cons, ih, get?_erase]
    by_cases hk : k = e.1 <;>
      simp only [hk, List.map_cons, List.mem_cons, true_or, false_or, if_true, if_false, ite_self]

theorem get?_foldl_put {t : Table κ μ} (h : k ∉ rows.map Prod.fst) :
    (rows.foldl (fun t e => t.put e.1 e.2) t).get? k = t.get? k := by
  induction rows generalizing t with
  | nil => rfl
  | cons e rows ih =>
    simp only [List.map_cons, List.mem_cons, not_or] at h
    rw [List.foldl_cons, ih h.2, get?_put, if_neg h.1]

theorem get?_foldl_put_of_mem {t : Table κ μ} (hnd : (rows.map Prod.fst).Nodup) {e : κ × μ} (he : e ∈ rows) :
    (rows.foldl (fun t e => t.put e.1 e.2) t).get? e.1 = some e.2 := by
  induction rows generalizing t with
  | nil => cases he
  | cons e' rows ih =>
    simp only [List.map_cons, List.nodup_cons] at hnd
    rw [List.foldl_cons]
    cases he with
    | head => rw [get?_foldl_put hnd.1, get?_put, if_pos rfl]
    | tail _ he => exact ih hnd.2 he

end Loops

/-! ## Counting -/

theorem count_congr {p q : κ → ν → Bool} (h : ∀ k v, t.get? k = some v → p k v = q k v) : t.count p = t.count q :=
  List.countP_congr fun e he => by rw [h e.1 e.2 (get?_eq_some_iff.mpr he)]

theorem count_pos_iff : 0 < t.count p ↔ ∃ k v, t.get? k = some v ∧ p k v = true := by
  simp [count, List.countP_pos_iff, get?_eq_some_iff]

theorem count_eq_zero_iff : t.count p = 0 ↔ ∀ k v, t.get? k = some v → p k v = false := by
  simp [count, List.countP_eq_zero, get?_eq_some_iff]

omit [DecidableEq κ] in
@[simp] theorem count_mapRows (t : Table κ ν) (f : κ → ν → ν) (p : κ → ν → Bool) :
    (t.mapRows f).count p = t.count fun k v => p k (f k v) := by
  simp [count, mapRows, List.countP_map, Function.comp_def]

omit [DecidableEq κ] in
@[simp] theorem any_mapRows (t : Table κ ν) (f : κ → ν → ν) (p : κ → ν → Bool) :
    (t.mapRows f).any p = t.any fun k v => p k (f k v) := by
  simp [any, mapRows, Function.comp_def]

omit [DecidableEq κ] in
theorem count_add_count_not (t : Table κ ν) (p q : κ → ν → Bool) :
    t.count (fun k v => p k v && q k v) + t.count (fun k v => p k v && !q k v) = t.count p := by
  obtain ⟨rows, hnd⟩ := t
  simp only [count]
  clear hnd
  induction rows with
  | nil => rfl
  | cons e es ih =>
    simp only [List.countP_cons]
    cases p e.1 e.2 <;> cases q e.1 e.2 <;> simp <;> omega

theorem count_put (hk : t.get? k = none) (v : ν) (p : κ → ν → Bool) :
    (t.put k v).count p = t.count p + if p k v then 1 else 0 := by
  have hmem : k ∉ t.rows.map Prod.fst := fun h => by
    obtain ⟨w, hw⟩ := mem_keys_iff.mp h
    rw [hk] at hw
    cases hw
  simp [count, put, hmem, List.countP_cons]

/-! ## Overlays -/

def overlay (t u : Table κ ν) : Table κ ν := u.rows.foldr (fun e t => t.put e.1 e.2) t

@[simp] theorem get?_overlay (t u : Table κ ν) (k : κ) : (t.overlay u).get? k = (u.get? k).or (t.get? k) := by
  obtain ⟨rows, hnd⟩ := u
  change (rows.foldr (fun e t => t.put e.1 e.2) t).get? k = (rows.lookup k).or (t.get? k)
  clear hnd
  induction rows with
  | nil => rfl
  | cons e rows ih =>
    rw [List.foldr_cons, get?_put, ih, List.lookup_cons]
    by_cases hk : k = e.1
    · simp [hk]
    · simp [hk, beq_false_of_ne hk]

theorem size_lt {t t' : Table κ ν} (hsub : ∀ k, t.get? k = none → t'.get? k = none)
    (hk : t.get? k ≠ none) (hk' : t'.get? k = none) : t'.size < t.size := by
  have hkeys (k' : κ) (h : t.get? k' ≠ none) : k' ∈ t.rows.map Prod.fst :=
    mem_keys_iff.mpr (Option.ne_none_iff_exists'.mp h)
  have hnd : (k :: t'.rows.map Prod.fst).Nodup := List.nodup_cons.mpr ⟨by simp [mem_keys_iff, hk'], t'.nodup⟩
  have hle := (hnd.subperm (List.cons_subset.mpr ⟨hkeys k hk, fun k' h => ?_⟩)).length_le
  · rwa [List.length_cons, List.length_map, List.length_map] at hle
  · obtain ⟨v, hv⟩ := mem_keys_iff.mp h
    exact hkeys k' fun hn => by simp [hsub k' hn] at hv

/-! ## Sets of keys -/

def having (t : Table κ ν) (p : ν → Bool) : Finset κ := ((t.select fun _ v => p v).map Prod.fst).toFinset

@[simp] theorem mem_having {p : ν → Bool} : k ∈ t.having p ↔ ∃ v, t.get? k = some v ∧ p v = true := by
  simp only [having, List.mem_toFinset, List.mem_map, Prod.exists, exists_and_right, exists_eq_right, mem_select]

theorem card_having (t : Table κ ν) (p : ν → Bool) : (t.having p).card = t.count fun _ v => p v := by
  rw [having, List.toFinset_card_of_nodup (t.nodup_select _), List.length_map, select, count,
    List.countP_eq_length_filter]

end Table
