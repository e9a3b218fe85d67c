import Workhorse.Json.Number
import Workhorse.Lib.SortByKey
import Workhorse.Lib.Utf16

/-!
# Canonical JSON texts

`canonicalText` of `checkpoint-fingerprint.ts`, on texts of UTF-16 code units. It reads the `JSON.stringify` text of a
value and writes it with the members of each object in the order of their keys. The check of a string and the way a
number is written are its parameters: `canonicalJson` refuses lone surrogates, `toJson` of `handler-replay.ts` refuses
nothing.
-/

namespace Workhorse

open CodeUnit

abbrev Utf16 := List CodeUnit

/-- A value that `JSON.stringify` writes. A number is the token that it is written with, and the members of an object
stand in the order of its properties. -/
inductive JsValue where
  | null
  | bool (b : Bool)
  | number (token : NumberToken)
  | string (s : Utf16)
  | array (items : List JsValue)
  | object (members : List (Utf16 × JsValue))

/-! ## `JSON.stringify` -/

def escapeUnit (c : CodeUnit) : Utf16 :=
  if c = ofChar '"' then [ofChar '\\', ofChar '"']
  else if c = ofChar '\\' then [ofChar '\\', ofChar '\\']
  else if c.val = 8 then [ofChar '\\', ofChar 'b']
  else if c.val = 12 then [ofChar '\\', ofChar 'f']
  else if c.val = 10 then [ofChar '\\', ofChar 'n']
  else if c.val = 13 then [ofChar '\\', ofChar 'r']
  else if c.val = 9 then [ofChar '\\', ofChar 't']
  else if c.val < 32 || c.surrogate then ofChar '\\' :: ofChar 'u' :: hexDigits c
  else [c]

/-- The inside of a string. A surrogate is escaped unless it is part of a pair. -/
def escapeUnits : Utf16 → Utf16
  | [] => []
  | [c] => escapeUnit c
  | c :: d :: rest =>
    if c.leading && d.trailing then c :: d :: escapeUnits rest else escapeUnit c ++ escapeUnits (d :: rest)

def quote (s : Utf16) : Utf16 := ofChar '"' :: (escapeUnits s ++ [ofChar '"'])

def member (key value : Utf16) : Utf16 := quote key ++ ofChar ':' :: value

def brackets (items : List Utf16) : Utf16 := ofChar '[' :: ([ofChar ','].intercalate items ++ [ofChar ']'])

def braces (members : List (Utf16 × Utf16)) : Utf16 :=
  ofChar '\x7b' :: ([ofChar ','].intercalate (members.map fun m => member m.1 m.2) ++ [ofChar '\x7d'])

namespace JsValue

mutual
def stringify : JsValue → Utf16
  | null => ofText "null".toList
  | bool b => ofText (if b then "true".toList else "false".toList)
  | number token => ofText token.text
  | string s => quote s
  | array items => brackets (stringifyItems items)
  | object members => braces (stringifyMembers members)

def stringifyItems : List JsValue → List Utf16
  | [] => []
  | v :: items => v.stringify :: stringifyItems items

def stringifyMembers : List (Utf16 × JsValue) → List (Utf16 × Utf16)
  | [] => []
  | (key, v) :: members => (key, v.stringify) :: stringifyMembers members
end

end JsValue

/-! ## `canonicalText` -/

inductive ReadError where
  /-- `checkString` throws. -/
  | refused (message : String)
  /-- The text is not one that `JSON.stringify` writes. -/
  | malformed

/-- The table `ESCAPED`. -/
def escaped (c : CodeUnit) : Option CodeUnit :=
  if c = ofChar '"' ∨ c = ofChar '\\' ∨ c = ofChar '/' then some c
  else if c = ofChar 'b' then some 8
  else if c = ofChar 'f' then some 12
  else if c = ofChar 'n' then some 10
  else if c = ofChar 'r' then some 13
  else if c = ofChar 't' then some 9
  else none

/-- The rest of a string after its opening quotation mark: the decoded string, and the text after it. -/
def readUnits : Utf16 → Option (Utf16 × Utf16)
  | [] => none
  | c :: text =>
    if c = ofChar '"' then some ([], text)
    else if c ≠ ofChar '\\' then (readUnits text).map (Prod.map (c :: ·) id)
    else
      match text with
      | [] => none
      | e :: text =>
        if e = ofChar 'u' then
          match text with
          | d₃ :: d₂ :: d₁ :: d₀ :: text =>
            (ofHexDigits d₃ d₂ d₁ d₀).bind fun c => (readUnits text).map (Prod.map (c :: ·) id)
          | _ => none
        else (escaped e).bind fun c => (readUnits text).map (Prod.map (c :: ·) id)

def delimiter (c : CodeUnit) : Bool := c = ofChar ',' || c = ofChar ']' || c = ofChar '\x7d'

section

variable {δ : Type} (checkString : Utf16 → Except String Utf16) (number : Utf16 → δ) (writeNumber : δ → Utf16)

def readString (text : Utf16) : Except ReadError (Utf16 × Utf16) :=
  match readUnits text.tail with
  | none => .error .malformed
  | some (decoded, text) =>
    match checkString decoded with
    | .ok decoded => .ok (decoded, text)
    | .error message => .error (.refused message)

def readKey (text : Utf16) : Except ReadError (Utf16 × Utf16) := do
  let (key, text) ← readString checkString text
  pure (key, text.tail)

/-- A number, `true`, `false` or `null`. -/
def writeToken (token : Utf16) : Utf16 :=
  if token = ofText "true".toList ∨ token = ofText "false".toList ∨ token = ofText "null".toList then token
  else writeNumber (number token)

mutual
/-- The canonical text of the value at the start of a text, and the text after it. Each call reads a unit first, so the
length of the text is enough fuel. -/
def readValue : Nat → Utf16 → Except ReadError (Utf16 × Utf16)
  | 0, _ => .error .malformed
  | fuel + 1, text =>
    if text.head? = some (ofChar '[') then
      if text.tail.head? = some (ofChar ']') then .ok (brackets [], text.tail.tail)
      else do
        let (items, text) ← readItems fuel text.tail
        pure (brackets items, text)
    else if text.head? = some (ofChar '\x7b') then
      if text.tail.head? = some (ofChar '\x7d') then .ok (braces [], text.tail.tail)
      else do
        let (members, text) ← readMembers fuel text.tail
        pure (braces (members.insertionSort fun a b => a.1 ≤ b.1), text)
    else if text.head? = some (ofChar '"') then do
      let (decoded, text) ← readString checkString text
      pure (quote decoded, text)
    else
      .ok (writeToken number writeNumber (text.takeWhile (!delimiter ·)), text.dropWhile (!delimiter ·))

def readItems : Nat → Utf16 → Except ReadError (List Utf16 × Utf16)
  | 0, _ => .error .malformed
  | fuel + 1, text => do
    let (item, text) ← readValue fuel text
    if text.head? = some (ofChar ',') then do
      let (items, text) ← readItems fuel text.tail
      pure (item :: items, text)
    else pure ([item], text.tail)

def readMembers : Nat → Utf16 → Except ReadError (List (Utf16 × Utf16) × Utf16)
  | 0, _ => .error .malformed
  | fuel + 1, text => do
    let (key, text) ← readKey checkString text
    let (value, text) ← readValue fuel text
    if text.head? = some (ofChar ',') then do
      let (members, text) ← readMembers fuel text.tail
      pure ((key, value) :: members, text)
    else pure ([(key, value)], text.tail)
end

def canonicalText (text : Utf16) : Except ReadError Utf16 := do
  let (canonical, _) ← readValue checkString number writeNumber text.length text
  pure canonical

end

/-- `wellFormed`, the check of `canonicalJson`. -/
def wellFormedString (s : Utf16) : Except String Utf16 :=
  if CodeUnit.wellFormed s then .ok s else .error "Checkpoint input strings must not contain a lone surrogate"

/-! ## Values up to key order -/

namespace JsValue

mutual
/-- The members of each object, in the order of the code units of their keys. -/
def sortKeys : JsValue → JsValue
  | null => null
  | bool b => bool b
  | number token => number token
  | string s => string s
  | array items => array (sortItems items)
  | object members => object ((sortMembers members).insertionSort fun a b => a.1 ≤ b.1)

def sortItems : List JsValue → List JsValue
  | [] => []
  | v :: items => v.sortKeys :: sortItems items

def sortMembers : List (Utf16 × JsValue) → List (Utf16 × JsValue)
  | [] => []
  | (key, v) :: members => (key, v.sortKeys) :: sortMembers members
end

mutual
def Same : JsValue → JsValue → Prop
  | null, null => True
  | bool a, bool b => a = b
  | number a, number b => a = b
  | string a, string b => a = b
  | array as, array bs => SameItems as bs
  | object ms, object ns => ms.length = ns.length ∧ SameMembers ms ns
  | _, _ => False

def SameItems : List JsValue → List JsValue → Prop
  | [], [] => True
  | a :: as, b :: bs => Same a b ∧ SameItems as bs
  | _, _ => False

/-- Each of the members has one with the same key and an equal value among the others. -/
def SameMembers : List (Utf16 × JsValue) → List (Utf16 × JsValue) → Prop
  | [], _ => True
  | (key, v) :: ms, ns => (∃ w, (key, w) ∈ ns ∧ Same v w) ∧ SameMembers ms ns
end

mutual
def parts : JsValue → List JsValue
  | array items => array items :: partsItems items
  | object members => object members :: partsMembers members
  | v => [v]

def partsItems : List JsValue → List JsValue
  | [] => []
  | v :: items => v.parts ++ partsItems items

def partsMembers : List (Utf16 × JsValue) → List JsValue
  | [] => []
  | (_, v) :: members => v.parts ++ partsMembers members
end

def Distinct (v : JsValue) : Prop := ∀ members, object members ∈ v.parts → (members.map Prod.fst).Nodup

def Canonical (write : Utf16 → Utf16) (v : JsValue) : Prop :=
  ∀ token, number token ∈ v.parts → write (ofText token.text) = ofText token.text

structure Accepted (checkString : Utf16 → Except String Utf16) (v : JsValue) : Prop where
  strings : ∀ s, string s ∈ v.parts → checkString s = .ok s
  keys : ∀ members, object members ∈ v.parts → ∀ m ∈ members, checkString m.1 = .ok m.1

end JsValue

end Workhorse
