import Workhorse.Json.Number
import Workhorse.Lib.Int64

/-!
# Numbers beyond the safe integers

The Go SDK decides from the text of a number whether it is above `2^53 - 1` in magnitude. It never computes the number:
the place of the decimal point decides, and the digits where the point leaves it open.
-/

namespace Workhorse

open scoped Digit

variable {t : NumberToken}

/-- `strings.Cut`. -/
def cut (mark : Char) (text : List Char) : List Char × List Char × Bool :=
  match text.dropWhile (· ≠ mark) with
  | [] => (text, [], false)
  | _ :: after => (text.takeWhile (· ≠ mark), after, true)

/-- `strings.TrimRight` with one character. -/
def trimRight (c : Char) (text : List Char) : List Char := (text.reverse.dropWhile (· = c)).reverse

def maxSafeCheckpointIntegerText : List Char := "9007199254740991".toList

/-- The end of `exceedsSafeInteger`: the value is `0.digits * 10^point`. -/
def exceedsAt (digits : List Char) (point : ℤ) : Bool :=
  if maxSafeCheckpointIntegerText.length < point then true
  else if point < maxSafeCheckpointIntegerText.length then false
  else
    let digits := trimRight '0' digits
    let integer := digits.take (min point digits.length).toNat ++
      List.replicate (max (point - digits.length) 0).toNat '0'
    if integer ≠ maxSafeCheckpointIntegerText then decide (maxSafeCheckpointIntegerText < integer)
    else decide (point < digits.length)

/-- The text is ASCII, so its characters are its bytes. `readInteger` with the bounds of an `int` is `strconv.Atoi`. -/
def exceedsSafeInteger (text : List Char) : Bool :=
  let (mantissa, exponentText, hasExponent) := cut 'e' ((splitMinus text).2.map Char.toLower)
  let (whole, fraction, _) := cut '.' mantissa
  let digits := (whole ++ fraction).dropWhile (· = '0')
  if digits = [] then false
  else
    match if hasExponent then (readInteger exponentText).bind checked64 else some 0 with
    | none => decide (exponentText.head? ≠ some '-')
    | some exponent =>
      if exponent < -text.length then false
      else
        let zeros := wrap64 (wrap64 (whole.length + fraction.length) - digits.length)
        exceedsAt digits (wrap64 (wrap64 (whole.length - zeros) + exponent))

/-! ## The parts of a token -/

theorem cut_append {mark : Char} {before : List Char} (h : ∀ c ∈ before, c ≠ mark) (after : List Char) :
    cut mark (before ++ mark :: after) = (before, after, true) := by
  have hkeep : ∀ c ∈ before, decide (c ≠ mark) = true := fun c hc => decide_eq_true (h c hc)
  rw [cut, List.dropWhile_append_of_pos hkeep, List.takeWhile_append_of_pos hkeep]
  simp

theorem cut_of_not_mem {mark : Char} {text : List Char} (h : ∀ c ∈ text, c ≠ mark) :
    cut mark text = (text, [], false) := by
  have hkeep : ∀ c ∈ text, decide (c ≠ mark) = true := fun c hc => decide_eq_true (h c hc)
  have hnil : text.dropWhile (· ≠ mark) = [] := by
    rw [← List.append_nil text, List.dropWhile_append_of_pos hkeep]
    rfl
  rw [cut, hnil]

theorem cut_fraction (t : NumberToken) :
    ∃ found, cut '.' (digitsText t.whole ++ t.fractionText) = (digitsText t.whole, digitsText t.fraction, found) := by
  have hwhole : ∀ c ∈ digitsText t.whole, c ≠ '.' := by
    rintro c hc rfl
    cases isDigit_of_mem_digitsText hc
  rw [NumberToken.fractionText]
  split
  · rename_i hf
    exact ⟨false, by rw [List.append_nil, cut_of_not_mem hwhole, hf]; rfl⟩
  · exact ⟨true, cut_append hwhole _⟩

/-- What follows the exponent mark. -/
def NumberToken.signedExponent (t : NumberToken) : List Char :=
  t.exponent.elim [] fun x => signText x.sign ++ digitsText x.digits

theorem toLower_digitsText (ds : List Digit) : (digitsText ds).map Char.toLower = digitsText ds := by
  have hdigit : ∀ d : Digit, d.toChar.toLower = d.toChar := by decide
  simp [digitsText, Function.comp_def, hdigit]

theorem cut_exponent (t : NumberToken) : cut 'e' (t.unsignedText.map Char.toLower) =
    (digitsText t.whole ++ t.fractionText, t.signedExponent, t.exponent.isSome) := by
  have hfraction : t.fractionText.map Char.toLower = t.fractionText := by
    rw [NumberToken.fractionText]
    split
    · rfl
    · rw [List.map_cons, toLower_digitsText]
      rfl
  have hmantissa : ∀ c ∈ digitsText t.whole ++ t.fractionText, c ≠ 'e' := by
    rintro c hc rfl
    rcases List.mem_append.mp hc with hc | hc
    · cases isDigit_of_mem_digitsText hc
    · rw [NumberToken.fractionText] at hc
      split at hc
      · cases hc
      · rcases List.mem_cons.mp hc with hc | hc
        · cases hc
        · cases isDigit_of_mem_digitsText hc
  rw [NumberToken.unsignedText, List.map_append, List.map_append, toLower_digitsText, hfraction, ← List.append_assoc]
  cases hx : t.exponent with
  | none =>
    simpa [NumberToken.exponentText, NumberToken.signedExponent, hx] using cut_of_not_mem hmantissa
  | some x =>
    have hmark : (if x.upper then 'E' else 'e').toLower = 'e' := by cases x.upper <;> rfl
    have hsign : (signText x.sign).map Char.toLower = signText x.sign := by rcases x.sign with _ | _ | _ <;> rfl
    simp only [NumberToken.exponentText, NumberToken.signedExponent, hx, Option.elim_some, ExponentPart.text,
      List.map_cons, hmark, List.map_append, hsign, toLower_digitsText, Option.isSome_some]
    exact cut_append hmantissa _

theorem toChar_eq_zero_iff (d : Digit) : d.toChar = '0' ↔ d = 0 := by
  revert d
  decide

theorem dropWhile_zero_digitsText (ds : List Digit) :
    (digitsText ds).dropWhile (· = '0') = digitsText (ds.dropWhile (· = 0)) := by
  simp [digitsText, List.dropWhile_map, Function.comp_def, toChar_eq_zero_iff]

theorem trimRight_digitsText (ds : List Digit) :
    trimRight '0' (digitsText ds) = digitsText (ds.reverse.dropWhile (· = 0)).reverse := by
  rw [trimRight, digitsText, ← List.map_reverse, ← digitsText, dropWhile_zero_digitsText, digitsText, digitsText,
    List.map_reverse]

/-! ## The digits decide at the last place -/

def maxSafeDigits : List Digit := [9, 0, 0, 7, 1, 9, 9, 2, 5, 4, 7, 4, 0, 9, 9, 1]

theorem digitsText_lt_iff (a b : List Digit) : digitsText a < digitsText b ↔ Digits.compareText a b = .lt := by
  have hdigit : ∀ x y : Digit, (x.toChar < y.toChar ↔ x.val < y.val) ∧ (x.toChar = y.toChar ↔ x = y) := by decide
  induction a generalizing b with
  | nil => cases b <;> simp [digitsText, Digits.compareText]
  | cons x a ih =>
    cases b with
    | nil => simp [digitsText, Digits.compareText]
    | cons y b =>
      rw [Digits.compareText, Ordering.then_eq_lt, Nat.compare_eq_lt, Nat.compare_eq_eq, ← Fin.ext_iff]
      simp only [digitsText, List.map_cons, List.cons_lt_cons_iff, hdigit]
      exact or_congr_right (and_congr_right fun _ => ih b)

/-- The integer part of a number with a decimal point after 16 digits, against `2^53 - 1`. -/
theorem integer_spec {ds integer : List Digit} (hlast : ds.getLast? ≠ some 0)
    (hinteger : integer = ds.take 16 ++ List.replicate (16 - ds.length) 0) :
    (Digits.value maxSafeDigits < Digits.value integer ∨ integer = maxSafeDigits ∧ 16 < ds.length) ↔
      Digits.value maxSafeDigits * 10 ^ (ds.length - 16) < Digits.value ds * 10 ^ (16 - ds.length) := by
  rcases Nat.lt_or_ge 16 ds.length with hlong | hshort
  · have hhead : integer = ds.take 16 := by simpa [show 16 - ds.length = 0 by omega] using hinteger
    have hsplit : Digits.value ds = Digits.value integer * 10 ^ (ds.length - 16) + Digits.value (ds.drop 16) := by
      rw [hhead, ← List.length_drop, ← Digits.value_append, List.take_append_drop]
    have hrest : Digits.value (ds.drop 16) ≠ 0 := by
      intro hzero
      have hne : ds.drop 16 ≠ [] := by simpa using hlong
      refine hlast ?_
      rw [← List.take_append_drop 16 ds, List.getLast?_append_of_ne_nil _ hne, List.getLast?_eq_some_getLast hne,
        Digits.value_eq_zero_iff.mp hzero _ (List.getLast_mem hne)]
    have hlt : Digits.value (ds.drop 16) < 10 ^ (ds.length - 16) := List.length_drop ▸ Digits.value_lt (ds.drop 16)
    have hinj (h : Digits.value maxSafeDigits = Digits.value integer) : integer = maxSafeDigits := by
      have hlength : integer.length = maxSafeDigits.length := by simp [hhead, maxSafeDigits, hlong.le]
      rw [← Digits.compareText_eq_eq_iff, Digits.compareText_of_length_eq hlength, h, Nat.compare_eq_eq]
    rw [hsplit, show 16 - ds.length = 0 by omega, pow_zero, mul_one]
    constructor
    · intro h
      have hle : Digits.value maxSafeDigits ≤ Digits.value integer := h.elim le_of_lt fun heq => heq.1 ▸ le_rfl
      have := Nat.mul_le_mul_right (10 ^ (ds.length - 16)) hle
      omega
    · -- The digits after the point add less than one.
      intro h
      rcases lt_trichotomy (Digits.value maxSafeDigits) (Digits.value integer) with hlt' | heq | hgt
      · exact .inl hlt'
      · exact .inr ⟨hinj heq, hlong⟩
      · have := Nat.mul_le_mul_right (10 ^ (ds.length - 16)) hgt
        rw [Nat.succ_mul] at this
        omega
  · have hvalue : Digits.value integer = Digits.value ds * 10 ^ (16 - ds.length) := by
      simp [hinteger, List.take_of_length_le hshort, Digits.value_append, Digits.value_replicate_zero]
    rw [show ds.length - 16 = 0 by omega, pow_zero, mul_one, ← hvalue]
    exact or_iff_left fun h => absurd h.2 (not_lt.mpr hshort)

theorem exceedsAt_of_lt {digits : List Char} {point : ℤ} (h : point < 16) : exceedsAt digits point = false := by
  have hsixteen : (maxSafeCheckpointIntegerText.length : ℤ) = 16 := rfl
  rw [exceedsAt, hsixteen, if_neg h.not_gt, if_pos h]

theorem exceedsAt_sixteen {ds : List Digit} (hlast : ds.getLast? ≠ some 0) {digits : List Char}
    (hdigits : trimRight '0' digits = digitsText ds) : exceedsAt digits 16 = true ↔
      Digits.value maxSafeDigits * 10 ^ (ds.length - 16) < Digits.value ds * 10 ^ (16 - ds.length) := by
  have hspec := integer_spec hlast rfl
  have hinteger : (digitsText ds).take (min (16 : ℤ) ds.length).toNat ++
      List.replicate (max (16 - (ds.length : ℤ)) 0).toNat '0' =
      digitsText (ds.take 16 ++ List.replicate (16 - ds.length) 0) := by
    have hmin : (min (16 : ℤ) ds.length).toNat = min 16 (digitsText ds).length := by
      rw [length_digitsText]
      omega
    rw [hmin, show (max (16 - (ds.length : ℤ)) 0).toNat = 16 - ds.length by omega, ← List.take_eq_take_min,
      digitsText_append, digitsText, digitsText, digitsText, List.map_take, List.map_replicate]
    rfl
  have hlength : maxSafeDigits.length = (ds.take 16 ++ List.replicate (16 - ds.length) 0).length := by
    simp only [maxSafeDigits, List.length_append, List.length_take, List.length_replicate, List.length_cons,
      List.length_nil]
    omega
  have hmax : maxSafeCheckpointIntegerText = digitsText maxSafeDigits := rfl
  have hsixteen : (maxSafeCheckpointIntegerText.length : ℤ) = 16 := rfl
  rw [← hspec, exceedsAt, hsixteen, if_neg (lt_irrefl _), if_neg (lt_irrefl _), hdigits]
  dsimp only
  rw [length_digitsText, hinteger, hmax]
  generalize ds.take 16 ++ List.replicate (16 - ds.length) 0 = integer at hlength ⊢
  by_cases hsame : integer = maxSafeDigits
  · rw [if_neg (not_not.mpr (congrArg digitsText hsame))]
    simp [hsame]
  · rw [if_pos fun h => hsame (digitsText_inj h), decide_eq_true_iff, digitsText_lt_iff,
      Digits.compareText_of_length_eq hlength, Nat.compare_eq_lt]
    exact (or_iff_left fun h => hsame h.1).symm

/-! ## The place of the decimal point -/

namespace NumberToken

/-- The digits from the first one that is not zero. -/
def significant (t : NumberToken) : List Digit := t.digits.dropWhile (· = 0)

/-- The value is `0.digits * 10^point`. -/
def point (t : NumberToken) : ℤ := t.significant.length - t.fraction.length + t.exponentValue

theorem abs_value_eq (t : NumberToken) :
    |t.value| = Scaled.value (Digits.value t.significant) (t.point - t.significant.length) := by
  have hscale : t.scale = t.point - t.significant.length := by
    rw [scale, point]
    ring
  rw [value, Scaled.abs_value, t.natAbs_mantissa, hscale, significant, Digits.value_dropWhile_zero]

theorem pow_le_significant (hne : t.significant ≠ []) : 10 ^ (t.significant.length - 1) ≤ Digits.value t.significant :=
  Digits.pow_le_value hne (Digits.head?_dropWhile_zero _)

theorem point_le (hne : t.significant ≠ []) (h : |t.value| < 2 ^ 1024) : t.point ≤ 1024 := by
  have hlow : 10 ^ (t.significant.length - 1) ≤ t.mantissa.natAbs := by
    rw [t.natAbs_mantissa, ← Digits.value_dropWhile_zero]
    exact pow_le_significant hne
  have hbound : |t.value| < 10 ^ 1024 := h.trans_le (pow_le_pow_left₀ (by norm_num) (by norm_num) _)
  have horder := Scaled.lt_of_abs_value_lt hlow hbound
  have hpos := List.length_pos_of_ne_nil hne
  rw [scale] at horder
  rw [point]
  omega

theorem exceedsAt_iff (hne : t.significant ≠ []) : exceedsAt (digitsText t.significant) t.point = true ↔
    2 ^ 53 - 1 < |t.value| := by
  have hmax : (2 ^ 53 - 1 : ℚ) = Scaled.value (Digits.value maxSafeDigits) 0 := by
    norm_num [Scaled.value, show Digits.value maxSafeDigits = 9007199254740991 from rfl]
  have hlength : (maxSafeCheckpointIntegerText.length : ℤ) = 16 := rfl
  have hpos := List.length_pos_of_ne_nil hne
  rw [hmax, t.abs_value_eq]
  rcases lt_trichotomy t.point 16 with h | h | h
  · have horder := @Scaled.mul_pow_lt_of_order (t.point - t.significant.length) 0 _ (Digits.value maxSafeDigits) _ 15
      (Digits.value_lt t.significant) (by decide) (by omega)
    rw [exceedsAt_of_lt h, Scaled.value_lt_iff, Bool.false_eq_true, false_iff, not_lt]
    exact_mod_cast horder.le
  · obtain ⟨ds, k, hds, -, -, hlast, hvalue, hlen⟩ := Digits.trim_spec hne
    have htrim : trimRight '0' (digitsText t.significant) = digitsText ds :=
      (trimRight_digitsText _).trans (congrArg digitsText hds)
    have hshift : Scaled.value (Digits.value t.significant) (16 - t.significant.length) =
        Scaled.value (Digits.value ds) (16 - ds.length) := by
      rw [significant, Digits.value_dropWhile_zero, hvalue, hlen]
      push_cast
      rw [Scaled.value_mul_pow]
      congr 1
      ring
    rw [h, exceedsAt_sixteen hlast htrim, hshift, Scaled.value_lt_iff,
      show (0 - (16 - (ds.length : ℤ))).toNat = ds.length - 16 by omega,
      show (16 - (ds.length : ℤ) - 0).toNat = 16 - ds.length by omega]
    exact_mod_cast Iff.rfl
  · have horder := @Scaled.mul_pow_lt_of_order 0 (t.point - t.significant.length) (Digits.value maxSafeDigits) _ 16 _
      (by decide) (pow_le_significant hne) (by omega)
    rw [exceedsAt, hlength, if_pos h, Scaled.value_lt_iff, eq_self, true_iff]
    exact_mod_cast horder

theorem signedExponent_head? (t : NumberToken) (h : t.exponentValue ≠ 0) :
    t.signedExponent.head? = some '-' ↔ t.exponentValue < 0 := by
  cases hx : t.exponent with
  | none => simp [exponentValue, hx] at h
  | some x =>
    obtain ⟨d, ds, hds⟩ := List.exists_cons_of_ne_nil x.digits_ne
    have hfirst : ∀ d : Digit, d.toChar ≠ '-' := by decide
    simp only [exponentValue, signedExponent, hx, Option.elim_some, ExponentPart.value] at h ⊢
    rcases hsign : x.sign with _ | _ | _
    · simp [signText, hds, digitsText, hfirst]
    · simp [signText]
    · simp only [hsign, if_true] at h ⊢
      simp [signText]
      omega

end NumberToken

theorem exceedsSafeInteger_text (t : NumberToken) : exceedsSafeInteger t.text = if t.significant = [] then false
    else match checked64 t.exponentValue with
      | none => decide (t.signedExponent.head? ≠ some '-')
      | some exponent => if exponent < -t.text.length then false else exceedsAt (digitsText t.significant)
          (wrap64 (wrap64 (t.whole.length - wrap64 (wrap64 (t.whole.length + t.fraction.length) -
            t.significant.length)) + exponent)) := by
  obtain ⟨found, hcut⟩ := cut_fraction t
  have hexponent : (if t.exponent.isSome then (readInteger t.signedExponent).bind checked64 else some 0) =
      checked64 t.exponentValue := by
    cases hx : t.exponent with
    | none => simp [NumberToken.exponentValue, hx, checked64]
    | some x => simp [NumberToken.signedExponent, NumberToken.exponentValue, hx, readInteger_text]
  simp only [exceedsSafeInteger, t.splitMinus_text, cut_exponent, hcut, hexponent, ← digitsText_append,
    dropWhile_zero_digitsText, length_digitsText, digitsText_eq_nil]
  rfl

/-- The check on the text of a number decides whether the value, with its fraction, is beyond the safe integers. -/
theorem exceedsSafeInteger_iff (t : NumberToken) (hlength : t.text.length ≤ 2 ^ 62) (hvalue : |t.value| < 2 ^ 1024) :
    exceedsSafeInteger t.text = true ↔ 2 ^ 53 - 1 < |t.value| := by
  rw [exceedsSafeInteger_text]
  split
  · rename_i hnil
    rw [t.abs_value_eq, hnil, Digits.value_nil, Nat.cast_zero, Scaled.value_zero]
    norm_num
  · rename_i hne
    rw [← NumberToken.exceedsAt_iff hne]
    have hdigits := t.length_digits_le
    have hpos := List.length_pos_of_ne_nil hne
    have hle : t.significant.length ≤ t.digits.length := (List.dropWhile_suffix _).length_le
    have hpoint := t.point_le hne hvalue
    have hsum : t.digits.length = t.whole.length + t.fraction.length := List.length_append
    have hdef : t.point = t.significant.length - t.fraction.length + t.exponentValue := rfl
    rw [checked64]
    by_cases hrange : -2 ^ 63 ≤ t.exponentValue ∧ t.exponentValue < 2 ^ 63
    · rw [if_pos hrange]
      dsimp only
      split
      · rw [exceedsAt_of_lt (by omega)]
      · -- Nothing wraps around, and the leading zeros before the point cancel.
        rw [@wrap64_eq (t.whole.length + t.fraction.length) (by omega) (by omega),
          @wrap64_eq (t.whole.length + t.fraction.length - t.significant.length) (by omega) (by omega),
          @wrap64_eq (t.whole.length - _) (by omega) (by omega), wrap64_eq (by omega) (by omega), hdef]
        ring_nf
    · -- A positive exponent out of range would put the point too far right for the value.
      have hneg : t.exponentValue < -2 ^ 63 := by omega
      rw [if_neg hrange, exceedsAt_of_lt (by omega)]
      simp [(t.signedExponent_head? (by omega)).mpr (by omega)]

theorem exceedsSafeInteger_iff_quarter : let t : NumberToken := ⟨false, maxSafeDigits, [2, 5], none, by decide⟩
    t.text = "9007199254740991.25".toList ∧ exceedsSafeInteger t.text = true ∧ (2 ^ 53 - 1 : ℚ) < |t.value| := by
  intro t
  have hvalue : t.value = 9007199254740991 + 1 / 4 := by
    norm_num [t, NumberToken.value, Scaled.value, NumberToken.mantissa, NumberToken.scale, NumberToken.exponentValue,
      NumberToken.digits, maxSafeDigits, show Digits.value
        [9, 0, 0, 7, 1, 9, 9, 2, 5, 4, 7, 4, 0, 9, 9, 1, 2, 5] = 900719925474099125 from rfl]
  have hexceeds : (2 ^ 53 - 1 : ℚ) < |t.value| := by
    rw [hvalue, abs_of_pos] <;> norm_num
  have hlarge : |t.value| < 2 ^ 1024 := by
    rw [hvalue, abs_of_pos (by norm_num)]
    exact lt_of_lt_of_le (by norm_num) (pow_le_pow_right₀ (by norm_num) (by norm_num : 64 ≤ 1024))
  exact ⟨by decide, (exceedsSafeInteger_iff t (by decide) hlarge).mpr hexceeds, hexceeds⟩

/-- `0.0…01e-4611686018427387904`. -/
def longFraction (zeros : ℕ) : NumberToken where
  negative := false
  whole := [0]
  fraction := List.replicate zeros 0 ++ [1]
  exponent := some ⟨false, some true, [4, 6, 1, 1, 6, 8, 6, 0, 1, 8, 4, 2, 7, 3, 8, 7, 9, 0, 4], by decide⟩
  whole_valid := .inl rfl

theorem longFraction_digits (zeros : ℕ) : (longFraction zeros).digits = List.replicate (zeros + 1) 0 ++ [1] := rfl

theorem longFraction_significant (zeros : ℕ) : (longFraction zeros).significant = [1] := by
  rw [NumberToken.significant, longFraction_digits, List.dropWhile_append_of_pos]
  · rfl
  · simp

theorem longFraction_length (zeros : ℕ) : (longFraction zeros).text.length = zeros + 24 := by
  have hne : (longFraction zeros).fraction ≠ [] := by simp [longFraction]
  simp [NumberToken.text, NumberToken.unsignedText, NumberToken.fractionText, hne]
  simp [longFraction, NumberToken.exponentText, ExponentPart.text, signText, length_digitsText]
  omega

/-- The place of the decimal point is below the smallest 64-bit integer and comes out as the largest one. -/
theorem exceedsSafeInteger_longFraction : (longFraction (2 ^ 62 + 1)).text.length < 2 ^ 63 ∧
    |(longFraction (2 ^ 62 + 1)).value| < 1 ∧ exceedsSafeInteger (longFraction (2 ^ 62 + 1)).text = true := by
  obtain ⟨zeros, hzeros⟩ : ∃ zeros : ℕ, zeros = 2 ^ 62 + 1 := ⟨_, rfl⟩
  rw [← hzeros]
  have hexponent : (longFraction zeros).exponentValue = -2 ^ 62 := rfl
  have hfraction : ((longFraction zeros).fraction.length : ℤ) = zeros + 1 := by simp [longFraction]
  have hwhole : ((longFraction zeros).whole.length : ℤ) = 1 := rfl
  have hlength := longFraction_length zeros
  have hpoint : wrap64 (wrap64 (1 - wrap64 (wrap64 (1 + (zeros + 1)) - 1)) + -2 ^ 62) = 2 ^ 63 - 1 := by
    rw [hzeros]
    decide
  refine ⟨by omega, ?_, ?_⟩
  · rw [NumberToken.abs_value_eq, NumberToken.point, longFraction_significant, hexponent, hfraction, Scaled.value,
      show Digits.value [1] = 1 from rfl, Nat.cast_one, Int.cast_one, one_mul]
    exact zpow_lt_one_of_neg₀ (by norm_num) (by rw [List.length_singleton]; omega)
  · rw [exceedsSafeInteger_text, longFraction_significant, if_neg (List.cons_ne_nil _ _), checked64, hexponent,
      if_pos (by omega), hwhole, hfraction, hlength, List.length_singleton, Nat.cast_one]
    dsimp only
    rw [hpoint, if_neg (by omega), exceedsAt, if_pos (by decide)]

end Workhorse
