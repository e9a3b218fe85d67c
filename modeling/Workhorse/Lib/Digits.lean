import Mathlib.Data.List.Basic
import Mathlib.Tactic.Ring

/-!
# Decimal digit strings

The value of a digit string, most significant digit first, and the order of digit strings as texts.
-/

abbrev Digit := Fin 10

namespace Digit

scoped instance : NeZero 10 := ⟨by decide⟩

def toChar (d : Digit) : Char := Char.ofNat (48 + d)

def ofChar (c : Char) : Digit := Fin.ofNat 10 (c.toNat - 48)

@[simp]
theorem ofChar_toChar (d : Digit) : ofChar d.toChar = d := by
  revert d
  decide

@[simp]
theorem isDigit_toChar (d : Digit) : d.toChar.isDigit = true := by
  revert d
  decide

end Digit

namespace Digits

open scoped Digit

variable {a b ds : List Digit} {d : Digit}

def value (ds : List Digit) : Nat := ds.foldl (fun n d => 10 * n + d.val) 0

@[simp]
theorem value_nil : value [] = 0 := rfl

theorem foldl_eq (n : Nat) (ds : List Digit) :
    ds.foldl (fun n d => 10 * n + d.val) n = n * 10 ^ ds.length + value ds := by
  induction ds generalizing n with
  | nil => simp
  | cons d ds ih =>
    rw [value, List.foldl_cons, List.foldl_cons, ih, ih (10 * 0 + (d : Nat)), List.length_cons, pow_succ]
    ring

theorem value_append (a b : List Digit) : value (a ++ b) = value a * 10 ^ b.length + value b := by
  rw [value, List.foldl_append, foldl_eq]
  rfl

theorem value_cons (d : Digit) (ds : List Digit) : value (d :: ds) = d * 10 ^ ds.length + value ds := by
  rw [value, List.foldl_cons, foldl_eq]
  simp

theorem value_replicate_zero (n : Nat) : value (List.replicate n 0) = 0 := by
  induction n with
  | zero => rfl
  | succ n ih => simp [List.replicate_succ, value_cons, ih]

theorem value_lt (ds : List Digit) : value ds < 10 ^ ds.length := by
  induction ds with
  | nil => simp
  | cons d ds ih =>
    have hd : (d : Nat) + 1 ≤ 10 := d.isLt
    calc value (d :: ds) = d * 10 ^ ds.length + value ds := value_cons d ds
      _ < d * 10 ^ ds.length + 10 ^ ds.length := by omega
      _ = (d + 1) * 10 ^ ds.length := by ring
      _ ≤ 10 * 10 ^ ds.length := Nat.mul_le_mul_right _ hd
      _ = 10 ^ (d :: ds).length := by rw [List.length_cons, pow_succ, mul_comm]

theorem le_value_of_head (hd : d ≠ 0) : 10 ^ ds.length ≤ value (d :: ds) := by
  have hpos : 1 ≤ (d : Nat) := by
    have : (d : Nat) ≠ 0 := fun h => hd (Fin.ext h)
    omega
  have : 1 * 10 ^ ds.length ≤ d.val * 10 ^ ds.length := Nat.mul_le_mul_right _ hpos
  rw [value_cons]
  omega

theorem value_dropWhile_zero (ds : List Digit) : value (ds.dropWhile (· = 0)) = value ds := by
  induction ds with
  | nil => rfl
  | cons d ds ih =>
    by_cases hd : d = 0
    · simp [hd, ih, value_cons]
    · simp [hd]

theorem value_eq_zero_iff : value ds = 0 ↔ ∀ d ∈ ds, d = 0 := by
  induction ds with
  | nil => simp
  | cons d ds ih =>
    have : (d : Nat) = 0 ↔ d = 0 := Fin.val_eq_zero_iff
    rw [value_cons]
    simp [ih, this]

/-! ## The order of texts -/

theorem compare_of_mul_add {x y r s k : Nat} (hr : r < k) (hs : s < k) :
    compare (x * k + r) (y * k + s) = (compare x y).then (compare r s) := by
  rcases Nat.lt_trichotomy x y with h | h | h
  · have : (x + 1) * k ≤ y * k := Nat.mul_le_mul_right k h
    rw [Nat.compare_eq_lt.mpr h, Nat.compare_eq_lt.mpr (by rw [Nat.add_mul] at this; omega)]
    rfl
  · subst h
    rw [Nat.compare_eq_eq.mpr rfl]
    rcases Nat.lt_trichotomy r s with h | h | h
    · rw [Nat.compare_eq_lt.mpr h, Nat.compare_eq_lt.mpr (by omega)]
      rfl
    · rw [Nat.compare_eq_eq.mpr h, Nat.compare_eq_eq.mpr (by omega)]
      rfl
    · rw [Nat.compare_eq_gt.mpr h, Nat.compare_eq_gt.mpr (by omega)]
      rfl
  · have : (y + 1) * k ≤ x * k := Nat.mul_le_mul_right k h
    rw [Nat.compare_eq_gt.mpr h, Nat.compare_eq_gt.mpr (by rw [Nat.add_mul] at this; omega)]
    rfl

/-- Digit strings compare as texts: the first difference decides, and a proper beginning is smaller. -/
def compareText : List Digit → List Digit → Ordering
  | [], [] => .eq
  | [], _ :: _ => .lt
  | _ :: _, [] => .gt
  | x :: a, y :: b => (compare x.val y.val).then (compareText a b)

theorem compareText_eq_eq_iff : compareText a b = .eq ↔ a = b := by
  induction a generalizing b with
  | nil => cases b <;> simp [compareText]
  | cons x a ih =>
    cases b with
    | nil => simp [compareText]
    | cons y b => simp [compareText, Ordering.then_eq_eq, ih, Fin.ext_iff]

/-- Aligned at their first digits, texts compare as the numbers they write; a longer one must not end with a zero. -/
theorem compareText_eq_compare (k : Nat) (hlen : a.length + k = b.length) (hb : k ≠ 0 → b.getLast? ≠ some 0) :
    compareText a b = compare (value a * 10 ^ k) (value b) := by
  induction a generalizing b with
  | nil =>
    cases b with
    | nil => simp [compareText]
    | cons y b =>
      have hpos : 0 < value (y :: b) := by
        rw [Nat.pos_iff_ne_zero, ne_eq, value_eq_zero_iff]
        intro hall
        refine hb (by simp at hlen; omega) ?_
        rw [List.getLast?_eq_some_getLast (List.cons_ne_nil y b), hall _ (List.getLast_mem _)]
      rw [value_nil, zero_mul, Nat.compare_eq_lt.mpr hpos]
      rfl
  | cons x a ih =>
    cases b with
    | nil => simp at hlen
    | cons y b =>
      have hlen' : a.length + k = b.length := by
        simp only [List.length_cons] at hlen
        omega
      have hb' : k ≠ 0 → b.getLast? ≠ some 0 := by
        intro hk
        cases b with
        | nil => simp
        | cons z b => simpa using hb hk
      have hsplit : value (x :: a) * 10 ^ k = x * 10 ^ b.length + value a * 10 ^ k := by
        rw [value_cons, ← hlen', pow_add]
        ring
      have hlt : value a * 10 ^ k < 10 ^ b.length := by
        rw [← hlen', pow_add]
        exact Nat.mul_lt_mul_of_pos_right (value_lt a) (Nat.pow_pos (by decide))
      rw [compareText, ih hlen' hb', hsplit, value_cons, compare_of_mul_add hlt (value_lt b)]

theorem compareText_of_length_eq (h : a.length = b.length) : compareText a b = compare (value a) (value b) := by
  have := compareText_eq_compare (a := a) (b := b) 0 (by omega) (fun h => absurd rfl h)
  simpa using this

/-! ## Digit strings without a first zero -/

theorem pow_le_value (hne : ds ≠ []) (h : ds.head? ≠ some 0) : 10 ^ (ds.length - 1) ≤ value ds := by
  cases ds with
  | nil => exact absurd rfl hne
  | cons d ds =>
    have hd : d ≠ 0 := by simpa using h
    simpa using @le_value_of_head ds d hd

theorem value_pos (hne : ds ≠ []) (h : ds.head? ≠ some 0) : 0 < value ds :=
  lt_of_lt_of_le (Nat.pow_pos (by decide)) (pow_le_value hne h)

theorem value_eq_zero_iff_nil (h : ds.head? ≠ some 0) : value ds = 0 ↔ ds = [] := by
  constructor
  · intro hv
    by_contra hne
    exact absurd hv (value_pos hne h).ne'
  · rintro rfl
    rfl

theorem head?_dropWhile_zero (ds : List Digit) : (ds.dropWhile (· = 0)).head? ≠ some 0 := by
  induction ds with
  | nil => simp
  | cons d ds ih =>
    by_cases hd : d = 0
    · simpa [hd] using ih
    · simp [hd]

theorem value_trim (ds : List Digit) :
    value ds = value (ds.reverse.dropWhile (· = 0)).reverse * 10 ^ (ds.reverse.takeWhile (· = 0)).length := by
  have hzeros : (ds.reverse.takeWhile (· = 0)).reverse = List.replicate (ds.reverse.takeWhile (· = 0)).length 0 := by
    rw [List.eq_replicate_iff]
    refine ⟨List.length_reverse, fun d hd => ?_⟩
    have hall := List.all_takeWhile (l := ds.reverse) (p := fun d : Digit => decide (d = 0))
    simpa using List.all_eq_true.mp hall d (List.mem_reverse.mp hd)
  conv_lhs =>
    rw [← List.reverse_reverse ds,
      ← List.takeWhile_append_dropWhile (p := fun d : Digit => decide (d = 0)) (l := ds.reverse),
      List.reverse_append, value_append, hzeros, value_replicate_zero, List.length_replicate, add_zero]

theorem head?_trim (h : ds.head? ≠ some 0) : (ds.reverse.dropWhile (· = 0)).reverse.head? ≠ some 0 := by
  have hsuffix := List.dropWhile_suffix (l := ds.reverse) (· = (0 : Digit))
  obtain ⟨zeros, hzeros⟩ := List.reverse_prefix.mpr hsuffix
  rw [List.reverse_reverse] at hzeros
  by_cases hnil : (ds.reverse.dropWhile (· = 0)).reverse = []
  · rw [hnil]
    simp
  · rw [← hzeros, List.head?_append_of_ne_nil _ hnil] at h
    exact h

theorem trim_spec (h : ds.dropWhile (· = 0) ≠ []) :
    ∃ S k, ((ds.dropWhile (· = 0)).reverse.dropWhile (· = 0)).reverse = S ∧ S ≠ [] ∧ S.head? ≠ some 0 ∧
      S.getLast? ≠ some 0 ∧ value ds = value S * 10 ^ k ∧ (ds.dropWhile (· = 0)).length = S.length + k := by
  have hvalue := value_trim (ds.dropWhile (· = 0))
  have hsum := congrArg List.length (List.takeWhile_append_dropWhile
    (p := fun d : Digit => decide (d = 0)) (l := (ds.dropWhile (· = 0)).reverse))
  rw [List.length_append, List.length_reverse] at hsum
  refine ⟨_, ((ds.dropWhile (· = 0)).reverse.takeWhile (· = 0)).length, rfl, ?_, head?_trim (head?_dropWhile_zero ds),
    ?_, by rw [← hvalue, value_dropWhile_zero], by rw [List.length_reverse]; omega⟩
  · intro hnil
    rw [hnil, value_nil, zero_mul, value_eq_zero_iff_nil (head?_dropWhile_zero ds)] at hvalue
    exact h hvalue
  · rw [List.getLast?_reverse]
    exact head?_dropWhile_zero _

end Digits
