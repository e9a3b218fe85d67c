import Workhorse.Lib.Decimal
import Workhorse.Lib.Digits

/-!
# JSON number tokens

The grammar of a JSON number, the characters of a token and the number that it writes. The SDKs read the characters.
-/

namespace Workhorse

open scoped Digit

variable {ds : List Digit}

structure ExponentPart where
  upper : Bool
  sign : Option Bool
  digits : List Digit
  digits_ne : digits ≠ []
  deriving DecidableEq, Repr

structure NumberToken where
  negative : Bool
  whole : List Digit
  /-- Empty for a token without a decimal point. -/
  fraction : List Digit
  exponent : Option ExponentPart
  /-- One zero, or digits that do not begin with one. -/
  whole_valid : whole = [0] ∨ whole ≠ [] ∧ whole.head? ≠ some 0
  deriving DecidableEq, Repr

/-- The sign characters: `some true` for a minus. -/
def signText : Option Bool → List Char
  | none => []
  | some false => ['+']
  | some true => ['-']

def digitsText (ds : List Digit) : List Char := ds.map Digit.toChar

namespace ExponentPart

def text (x : ExponentPart) : List Char := (if x.upper then 'E' else 'e') :: (signText x.sign ++ digitsText x.digits)

def value (x : ExponentPart) : ℤ := if x.sign = some true then -(Digits.value x.digits : ℤ) else Digits.value x.digits

end ExponentPart

namespace NumberToken

def exponentText (t : NumberToken) : List Char := t.exponent.elim [] ExponentPart.text

def exponentValue (t : NumberToken) : ℤ := t.exponent.elim 0 ExponentPart.value

def fractionText (t : NumberToken) : List Char := if t.fraction = [] then [] else '.' :: digitsText t.fraction

def digits (t : NumberToken) : List Digit := t.whole ++ t.fraction

def unsignedText (t : NumberToken) : List Char := digitsText t.whole ++ (t.fractionText ++ t.exponentText)

def text (t : NumberToken) : List Char := (if t.negative then ['-'] else []) ++ t.unsignedText

def scale (t : NumberToken) : ℤ := t.exponentValue - t.fraction.length

def mantissa (t : NumberToken) : ℤ := if t.negative then -(Digits.value t.digits : ℤ) else Digits.value t.digits

def value (t : NumberToken) : ℚ := Scaled.value t.mantissa t.scale

theorem whole_ne_nil (t : NumberToken) : t.whole ≠ [] := by
  rcases t.whole_valid with h | h
  · simp [h]
  · exact h.1

end NumberToken

/-! ## Reading digits back -/

theorem isDigit_of_mem_digitsText {c : Char} (h : c ∈ digitsText ds) : c.isDigit = true := by
  obtain ⟨d, -, rfl⟩ := List.mem_map.mp h
  exact d.isDigit_toChar

@[simp]
theorem map_ofChar_digitsText (ds : List Digit) : (digitsText ds).map Digit.ofChar = ds := by
  simp [digitsText, Function.comp_def]

@[simp]
theorem digitsText_eq_nil : digitsText ds = [] ↔ ds = [] := by simp [digitsText]

@[simp]
theorem length_digitsText (ds : List Digit) : (digitsText ds).length = ds.length := by simp [digitsText]

theorem digitsText_append (a b : List Digit) : digitsText (a ++ b) = digitsText a ++ digitsText b := by
  simp [digitsText]

def splitMinus : List Char → Bool × List Char
  | '-' :: rest => (true, rest)
  | rest => (false, rest)

def splitSign : List Char → Bool × List Char
  | '-' :: rest => (true, rest)
  | '+' :: rest => (false, rest)
  | rest => (false, rest)

def readInteger (text : List Char) : Option ℤ :=
  let (negative, digits) := splitSign text
  if digits ≠ [] ∧ digits.all Char.isDigit then
    let value : ℤ := Digits.value (digits.map Digit.ofChar)
    some (if negative then -value else value)
  else none

theorem splitSign_text (sign : Option Bool) (hne : ds ≠ []) :
    splitSign (signText sign ++ digitsText ds) = (sign == some true, digitsText ds) := by
  match sign with
  | some true => rfl
  | some false => rfl
  | none =>
    -- Without a sign the first character is a digit, so it is neither sign.
    obtain ⟨d, ds, rfl⟩ := List.exists_cons_of_ne_nil hne
    have hfirst : ∀ d : Digit, d.toChar ≠ '-' ∧ d.toChar ≠ '+' := by decide
    simp [signText, digitsText, splitSign, hfirst d]

theorem readInteger_text (x : ExponentPart) : readInteger (signText x.sign ++ digitsText x.digits) = some x.value := by
  have hall : (digitsText x.digits).all Char.isDigit = true :=
    List.all_eq_true.mpr fun c hc => isDigit_of_mem_digitsText hc
  rw [readInteger, splitSign_text x.sign x.digits_ne]
  simp [x.digits_ne, hall, ExponentPart.value]

def Undigited (text : List Char) : Prop := ∀ c, text.head? = some c → c.isDigit = false

theorem takeWhile_digitsText (ds : List Digit) {rest : List Char} (h : Undigited rest) :
    (digitsText ds ++ rest).takeWhile Char.isDigit = digitsText ds := by
  rw [List.takeWhile_append_of_pos fun c hc => isDigit_of_mem_digitsText hc]
  cases rest with
  | nil => simp
  | cons c rest => simp [h c rfl]

theorem dropWhile_digitsText (ds : List Digit) {rest : List Char} (h : Undigited rest) :
    (digitsText ds ++ rest).dropWhile Char.isDigit = rest := by
  rw [List.dropWhile_append_of_pos fun c hc => isDigit_of_mem_digitsText hc]
  cases rest with
  | nil => rfl
  | cons c rest => simp [h c rfl]

namespace NumberToken

variable (t : NumberToken)

theorem splitMinus_text : splitMinus t.text = (t.negative, t.unsignedText) := by
  cases hn : t.negative with
  | true => simp [text, hn, splitMinus]
  | false =>
    obtain ⟨d, ds, hds⟩ := List.exists_cons_of_ne_nil t.whole_ne_nil
    have hfirst : ∀ d : Digit, d.toChar ≠ '-' := by decide
    simp [text, unsignedText, hn, hds, digitsText, splitMinus, hfirst d]

theorem exponentText_ne_point (rest : List Char) : t.exponentText ≠ '.' :: rest := by
  intro heq
  cases hx : t.exponent with
  | none => simp [exponentText, hx] at heq
  | some x =>
    simp only [exponentText, hx, Option.elim_some, ExponentPart.text, List.cons.injEq] at heq
    cases hup : x.upper <;> simp [hup] at heq

theorem undigited_exponentText : Undigited t.exponentText := by
  intro c hc
  cases hx : t.exponent with
  | none => simp [exponentText, hx] at hc
  | some x =>
    simp only [exponentText, hx, Option.elim_some, ExponentPart.text, List.head?_cons, Option.some.injEq] at hc
    subst hc
    cases x.upper <;> rfl

theorem undigited_fractionText : Undigited (t.fractionText ++ t.exponentText) := by
  intro c hc
  by_cases hf : t.fraction = []
  · rw [fractionText, if_pos hf] at hc
    exact t.undigited_exponentText c hc
  · simp only [fractionText, if_neg hf, List.cons_append, List.head?_cons, Option.some.injEq] at hc
    subst hc
    rfl

theorem length_digits_le : t.digits.length ≤ t.text.length := by
  by_cases hf : t.fraction = []
  · simp only [digits, text, unsignedText, hf, List.append_nil, List.length_append, length_digitsText]
    omega
  · simp only [digits, text, unsignedText, fractionText, if_neg hf, List.length_append, List.length_cons,
      length_digitsText]
    omega

theorem natAbs_mantissa : t.mantissa.natAbs = Digits.value t.digits := by
  rw [mantissa]
  split <;> simp

end NumberToken

/-! ## Tokens with the same characters -/

theorem digitsText_inj {ds ds' : List Digit} (h : digitsText ds = digitsText ds') : ds = ds' := by
  rw [← map_ofChar_digitsText ds, h, map_ofChar_digitsText]

theorem digits_append_inj {ds ds' : List Digit} {rest rest' : List Char} (hrest : Undigited rest)
    (hrest' : Undigited rest') (h : digitsText ds ++ rest = digitsText ds' ++ rest') : ds = ds' ∧ rest = rest' := by
  constructor
  · apply digitsText_inj
    rw [← takeWhile_digitsText ds hrest, h, takeWhile_digitsText ds' hrest']
  · rw [← dropWhile_digitsText ds hrest, h, dropWhile_digitsText ds' hrest']

theorem digitsText_ne_sign {c : Char} (hc : c = '+' ∨ c = '-') (rest : List Char) : digitsText ds ≠ c :: rest := by
  intro h
  have hdigit := isDigit_of_mem_digitsText (h ▸ List.mem_cons_self : c ∈ digitsText ds)
  obtain rfl | rfl := hc <;> cases hdigit

theorem ExponentPart.text_inj {x y : ExponentPart} (h : x.text = y.text) : x = y := by
  obtain ⟨upper, sign, ds, hds⟩ := x
  obtain ⟨upper', sign', ds', hds'⟩ := y
  simp only [ExponentPart.text, List.cons.injEq] at h
  obtain ⟨hupper, hsigned⟩ := h
  have hupper : upper = upper' := by
    cases upper <;> cases upper' <;> simp_all
  -- A digit is no sign, so the signs are the same.
  have hsign : sign = sign' ∧ ds = ds' := by
    match sign, sign' with
    | none, none => exact ⟨rfl, digitsText_inj hsigned⟩
    | some false, some false | some true, some true => exact ⟨rfl, digitsText_inj (List.cons_injective hsigned)⟩
    | none, some false => exact absurd hsigned (digitsText_ne_sign (.inl rfl) _)
    | none, some true => exact absurd hsigned (digitsText_ne_sign (.inr rfl) _)
    | some false, none => exact absurd hsigned.symm (digitsText_ne_sign (.inl rfl) _)
    | some true, none => exact absurd hsigned.symm (digitsText_ne_sign (.inr rfl) _)
    | some false, some true | some true, some false => simp [signText] at hsigned
  simp [hupper, hsign]

theorem NumberToken.exponent_inj {a b : NumberToken} (h : a.exponentText = b.exponentText) :
    a.exponent = b.exponent := by
  cases ha : a.exponent <;> cases hb : b.exponent <;>
    simp only [exponentText, ha, hb, Option.elim_some, Option.elim_none] at h
  · rfl
  · simp [ExponentPart.text] at h
  · simp [ExponentPart.text] at h
  · rw [ExponentPart.text_inj h]

theorem NumberToken.text_inj {a b : NumberToken} (h : a.text = b.text) : a = b := by
  have hsplit : (a.negative, a.unsignedText) = (b.negative, b.unsignedText) := by
    rw [← a.splitMinus_text, h, b.splitMinus_text]
  obtain ⟨hnegative, hunsigned⟩ := Prod.ext_iff.mp hsplit
  obtain ⟨hwhole, hrest⟩ := digits_append_inj a.undigited_fractionText b.undigited_fractionText hunsigned
  have hpoint : a.fraction = b.fraction ∧ a.exponentText = b.exponentText := by
    by_cases ha : a.fraction = [] <;> by_cases hb : b.fraction = [] <;>
      simp only [fractionText, ha, hb, if_true, if_false, List.nil_append, List.cons_append] at hrest
    · exact ⟨ha.trans hb.symm, hrest⟩
    · exact absurd hrest (a.exponentText_ne_point _)
    · exact absurd hrest.symm (b.exponentText_ne_point _)
    · exact digits_append_inj a.undigited_exponentText b.undigited_exponentText (List.cons_injective hrest)
  have hexponent := exponent_inj hpoint.2
  obtain ⟨_, _, _, _, _⟩ := a
  obtain ⟨_, _, _, _, _⟩ := b
  simp_all

end Workhorse
