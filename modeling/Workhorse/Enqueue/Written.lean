import Mathlib.Data.Rat.Floor
import Mathlib.Data.String.Basic
import Workhorse.Task.Retry

/-!
# Requests as they are written

A caller writes the members of an object in some order, an instant with some offset, and the numbers of
a retry policy in some form. `WrittenRequest.read` is the request that the schema takes from that.
-/

namespace Workhorse

/-- A JSON text, read into a tree that keeps the order of the members. No object repeats a key. -/
inductive Json
  | null
  | bool (b : Bool)
  | number (q : ℚ) (scale : Nat)
  | text (s : String)
  | array (items : List Json)
  | object (members : List (String × Json))

namespace Json

mutual
/-- The tree of a `jsonb` value: the members of each object in the order of their keys. -/
def canonical : Json → Json
  | null => null
  | bool b => bool b
  | number q scale => number q scale
  | text s => text s
  | array items => array (canonicalItems items)
  | object members => object ((canonicalMembers members).insertionSort fun a b => a.1 ≤ b.1)

def canonicalItems : List Json → List Json
  | [] => []
  | j :: items => j.canonical :: canonicalItems items

def canonicalMembers : List (String × Json) → List (String × Json)
  | [] => []
  | (k, j) :: members => (k, j.canonical) :: canonicalMembers members
end

/-- Two texts of one value: the members of objects may stand in another order. -/
inductive Same : Json → Json → Prop
  | refl (j : Json) : Same j j
  | trans {i j k : Json} : Same i j → Same j k → Same i k
  | reorder {members members' : List (String × Json)} :
      members.Perm members' → (members.map Prod.fst).Nodup → Same (object members) (object members')
  | item (before : List Json) {i j : Json} (after : List Json) :
      Same i j → Same (array (before ++ i :: after)) (array (before ++ j :: after))
  | value (before : List (String × Json)) (k : String) {i j : Json} (after : List (String × Json)) :
      Same i j → Same (object (before ++ (k, i) :: after)) (object (before ++ (k, j) :: after))

end Json

/-- A timestamp with the offset of its time zone, both in microseconds. -/
structure WrittenInstant where
  wallClock : Int
  offset : Int

/-- The cast to `timestamptz`. -/
def WrittenInstant.time (t : WrittenInstant) : Time := t.wallClock - t.offset

inductive Scalar
  | number (q : ℚ)
  | text (s : String)
deriving DecidableEq

abbrev WrittenPolicy := List (String × Scalar)

namespace WrittenPolicy

def number (p : WrittenPolicy) (name : String) : Option ℚ :=
  match p.lookup name with
  | some (.number q) => some q
  | _ => none

def hasExactly (p : WrittenPolicy) (names : List String) : Bool :=
  p.all (fun e => names.contains e.1) && names.all fun name => (p.lookup name).isSome

def whole (q low high : ℚ) : Bool := q = q.floor && low ≤ q && q ≤ high

/-- `normalize_retry_policy_v1`, on the members that a caller wrote. -/
def normalize (p : WrittenPolicy) : Except String RetryPolicy :=
  match p.lookup "type" with
  | some (.text "fixed") =>
    match p.hasExactly ["type", "delayMs"], p.number "delayMs" with
    | true, some delay =>
      if !whole delay 0 maxDelayMs then
        throw "fixed delayMs must be an integer between 0 and 31536000000"
      else pure (.fixed delay.floor.toNat)
    | _, _ => throw "fixed retryPolicy requires exactly type and delayMs"
  | some (.text "exponential") =>
    match p.hasExactly ["type", "initialDelayMs", "multiplier", "maxDelayMs"],
      p.number "initialDelayMs", p.number "multiplier", p.number "maxDelayMs" with
    | true, some initial, some multiplier, some maximum =>
      if !whole initial 0 maxDelayMs then
        throw "exponential initialDelayMs must be an integer between 0 and 31536000000"
      else if !whole multiplier 1 100 then
        throw "exponential multiplier must be an integer between 1 and 100"
      else if !whole maximum 0 maxDelayMs || maximum < initial then
        throw "exponential maxDelayMs must be an integer between initialDelayMs and 31536000000"
      else pure (.exponential initial.floor.toNat multiplier.floor.toNat maximum.floor.toNat)
    | _, _, _, _ => throw
        "exponential retryPolicy requires exactly type, initialDelayMs, multiplier, and maxDelayMs"
  | some (.text "decorrelated-jitter") =>
    match p.hasExactly ["type", "baseDelayMs", "maxDelayMs"], p.number "baseDelayMs", p.number "maxDelayMs" with
    | true, some base, some maximum =>
      if !whole base 0 maxDelayMs then
        throw "decorrelated-jitter baseDelayMs must be an integer between 0 and 31536000000"
      else if !whole maximum 0 maxDelayMs || maximum < base then
        throw "decorrelated-jitter maxDelayMs must be an integer between baseDelayMs and 31536000000"
      else pure (.decorrelatedJitter base.floor.toNat maximum.floor.toNat)
    | _, _, _ => throw "decorrelated-jitter retryPolicy requires exactly type, baseDelayMs, and maxDelayMs"
  | _ => throw "retryPolicy type must be fixed, exponential, or decorrelated-jitter"

end WrittenPolicy

/-- A request as a caller writes it. The other members have one form each. -/
structure WrittenRequest where
  payload : Json
  runAt : Option WrittenInstant
  deadline : Option WrittenInstant
  retryPolicy : Option WrittenPolicy
  others : Request

namespace WrittenRequest

/-- The request that the schema takes, where `store` is how it holds the tree of a payload. -/
def read (store : Json → Jsonb) (w : WrittenRequest) : Except String Request := do
  let retryPolicy ← w.retryPolicy.mapM WrittenPolicy.normalize
  pure { w.others with
    payload := store w.payload.canonical
    runAt := w.runAt.map WrittenInstant.time
    deadline := w.deadline.map WrittenInstant.time
    retryPolicy }

def SamePolicy : Option WrittenPolicy → Option WrittenPolicy → Prop
  | none, none => True
  | some p, some p' => p.Perm p' ∧ (p.map Prod.fst).Nodup
  | _, _ => False

structure Same (w w' : WrittenRequest) : Prop where
  payload : w.payload.Same w'.payload
  runAt : w.runAt.map WrittenInstant.time = w'.runAt.map WrittenInstant.time
  deadline : w.deadline.map WrittenInstant.time = w'.deadline.map WrittenInstant.time
  retryPolicy : SamePolicy w.retryPolicy w'.retryPolicy
  others : w.others = w'.others

end WrittenRequest

end Workhorse
