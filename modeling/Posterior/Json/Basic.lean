import Posterior.Decimal.Scaled

/-!
# JSON

The tree of a JSON text, as far as a reader of particular data needs it: numbers keep their
digits, objects keep all their fields in order, and a string that holds half of a surrogate
pair is known to be no text.

## Main definitions

* `Json.Numeral` — a number as written
* `Json` — the trees
* `Json.depth` — how deeply arrays and objects are nested
* `Json.quote` — the written form of a text
-/

namespace Posterior

/-- A number as written. -/
structure Json.Numeral where
  /-- Whether it has a minus sign. -/
  negative : Bool
  /-- The digits before the point. -/
  whole : List Char
  /-- The digits after the point, if it has one. -/
  fraction : Option (List Char)
  /-- The exponent, if it has one. -/
  exponent : Option Int
  deriving DecidableEq, Repr

/-- The trees of JSON texts. -/
inductive Json where
  /-- The null value. -/
  | null
  /-- A truth value. -/
  | bool (b : Bool)
  /-- A number. -/
  | number (n : Json.Numeral)
  /-- A string, which may be no text. -/
  | string (s : Option String)
  /-- A sequence. -/
  | array (items : List Json)
  /-- Named fields; a name may occur more than once. -/
  | object (fields : List (Option String × Json))

namespace Json

/-- The double that a number is read as, unless that is infinite: its leading digits, scaled. -/
def Numeral.toFloat? (n : Numeral) : Option Float :=
  (Decimal.leading n.whole (n.fraction.getD []) (n.exponent.getD 0)).scaled?.map fun x =>
    if n.negative then -x else x

/-- The integer that a number is written as, if it fits a signed or an unsigned word. A negative
zero is no integer. -/
def Numeral.toInt? (n : Numeral) : Option Int :=
  let magnitude := Decimal.digitsValue n.whole
  if n.fraction.isSome || n.exponent.isSome || (n.negative && magnitude == 0) then none
  else
    let i : Int := if n.negative then -magnitude else magnitude
    if Int64.minValue.toInt ≤ i ∧ i < UInt64.size then some i else none

mutual

/-- How deeply arrays and objects are nested. -/
def depth : Json → Nat
  | array items => depthItems items + 1
  | object fields => depthFields fields + 1
  | _ => 0

/-- The largest depth among the items of an array. -/
def depthItems : List Json → Nat
  | [] => 0
  | j :: js => Nat.max (depth j) (depthItems js)

/-- The largest depth among the fields of an object. -/
def depthFields : List (Option String × Json) → Nat
  | [] => 0
  | (_, j) :: rest => Nat.max (depth j) (depthFields rest)

end

/-- The written form of one character of a string. -/
def escape (c : Char) : List Char :=
  if c = '"' then ['\\', '"']
  else if c = '\\' then ['\\', '\\']
  else if c = '\x08' then ['\\', 'b']
  else if c = '\x0c' then ['\\', 'f']
  else if c = '\n' then ['\\', 'n']
  else if c = '\r' then ['\\', 'r']
  else if c = '\t' then ['\\', 't']
  else if c.toNat < 0x20 then
    ['\\', 'u', '0', '0', Nat.digitChar (c.toNat / 16), Nat.digitChar (c.toNat % 16)]
  else [c]

/-- The written form of a text. -/
def quote (s : String) : String := String.ofList ('"' :: s.toList.flatMap escape ++ ['"'])

end Json

end Posterior
