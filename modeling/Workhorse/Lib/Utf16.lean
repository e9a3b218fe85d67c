import Mathlib.Algebra.GroupWithZero.Nat

/-!
# UTF-16 code units

The units of a JavaScript string or a .NET string. A string may hold surrogates that are not part of a pair.
-/

abbrev CodeUnit := Fin 65536

namespace CodeUnit

instance : NeZero 65536 := ⟨by decide⟩

def ofChar (c : Char) : CodeUnit := Fin.ofNat 65536 c.toNat

def ofText (text : List Char) : List CodeUnit := text.map ofChar

def leading (c : CodeUnit) : Bool := 0xD800 ≤ c.val && c.val < 0xDC00

def trailing (c : CodeUnit) : Bool := 0xDC00 ≤ c.val && c.val < 0xE000

def surrogate (c : CodeUnit) : Bool := c.leading || c.trailing

def wellFormed : List CodeUnit → Bool
  | [] => true
  | [c] => !c.surrogate
  | c :: d :: rest => if c.leading && d.trailing then wellFormed rest else !c.surrogate && wellFormed (d :: rest)

def hexDigit (n : Nat) : CodeUnit := Fin.ofNat 65536 (if n < 10 then 48 + n else 87 + n)

def hexValue (c : CodeUnit) : Option Nat :=
  if 48 ≤ c.val ∧ c.val < 58 then some (c.val - 48)
  else if 97 ≤ c.val ∧ c.val < 103 then some (c.val - 87)
  else if 65 ≤ c.val ∧ c.val < 71 then some (c.val - 55)
  else none

def hexDigits (c : CodeUnit) : List CodeUnit :=
  [hexDigit (c.val / 4096), hexDigit (c.val / 256 % 16), hexDigit (c.val / 16 % 16), hexDigit (c.val % 16)]

def ofHexDigits (d₃ d₂ d₁ d₀ : CodeUnit) : Option CodeUnit := do
  let n₃ ← hexValue d₃
  let n₂ ← hexValue d₂
  let n₁ ← hexValue d₁
  let n₀ ← hexValue d₀
  some (Fin.ofNat 65536 (4096 * n₃ + 256 * n₂ + 16 * n₁ + n₀))

theorem hexValue_hexDigit {n : Nat} (h : n < 16) : hexValue (hexDigit n) = some n := by
  revert n
  decide

theorem ofHexDigits_hexDigits (c : CodeUnit) :
    ofHexDigits (hexDigit (c.val / 4096)) (hexDigit (c.val / 256 % 16)) (hexDigit (c.val / 16 % 16))
      (hexDigit (c.val % 16)) = some c := by
  have hc := c.isLt
  simp only [ofHexDigits, hexValue_hexDigit (show c.val / 4096 < 16 by omega),
    hexValue_hexDigit (Nat.mod_lt (c.val / 256) (by decide)), hexValue_hexDigit (Nat.mod_lt (c.val / 16) (by decide)),
    hexValue_hexDigit (Nat.mod_lt c.val (by decide)), Option.bind_eq_bind, Option.bind_some]
  congr 1
  apply Fin.ext
  simp only [Fin.ofNat]
  omega

end CodeUnit
