import Posterior.Json.Reader
import Posterior.Value.Basic

/-!
# Values as data

A value is written as an object whose one field is named for its kind; the unit value is the name
of its kind alone. A float that is infinite or not a number is written as null, which no float is
read from.

## Main definitions

* `Value.toData` — the written form of a value
* `Value.ofJson?` — the value that a tree stands for
* `Value.ofData?` — the value that a text stands for, with a limit on nesting
-/

namespace Posterior.Value

/-- A field that names a kind, with the given content. -/
def tagged (kind : String) (content : String) : String :=
  "\x7b" ++ Json.quote kind ++ ":" ++ content ++ "\x7d"

/-- The written form of a float. -/
def floatData (x : Float) : String :=
  match Decimal.read x with
  | .finite b => Decimal.data.number b
  | _ => "null"

mutual

/-- The written form of a value. -/
def toData : Value → String
  | unit => Json.quote "Unit"
  | bool b => tagged "Bool" (if b then "true" else "false")
  | int i => tagged "Int" i.toInt.repr
  | float x => tagged "Float" (floatData x)
  | str s => tagged "Str" (Json.quote s)
  | list items => tagged "List" ("[" ++ itemsData items ++ "]")

/-- The written forms of a list's items, each but the first after a comma. -/
def itemsData : List Value → String
  | [] => ""
  | [v] => toData v
  | v :: w :: vs => toData v ++ "," ++ itemsData (w :: vs)

end

/-- The 64-bit integer that a number is written as. -/
def intOfNumeral? (n : Json.Numeral) : Option Int64 :=
  match n.toInt? with
  | some i => if i ≤ Int64.maxValue.toInt then some (Int64.ofInt i) else none
  | none => none

mutual

/-- The value that a tree stands for. -/
def ofJson? : Json → Option Value
  | .string (some "Unit") => some unit
  | .object [(some "Unit", .null)] => some unit
  | .object [(some "Bool", .bool b)] => some (bool b)
  | .object [(some "Int", .number n)] => (intOfNumeral? n).map int
  | .object [(some "Float", .number n)] => n.toFloat?.map float
  | .object [(some "Str", .string (some s))] => some (str s)
  | .object [(some "List", .array items)] => (ofItems? items).map list
  | _ => none

/-- The values that a list of trees stands for. -/
def ofItems? : List Json → Option (List Value)
  | [] => some []
  | j :: js =>
    match ofJson? j, ofItems? js with
    | some v, some vs => some (v :: vs)
    | _, _ => none

end

/-- The value that a text stands for, nested no deeper than the limit if there is one. -/
def ofData? (limit : Option Nat) (s : String) : Option Value :=
  match Json.parse? s with
  | none => none
  | some j => if limit.all (j.depth ≤ ·) then ofJson? j else none

/-- How deeply data may be nested that comes from outside. -/
def dataLimit : Nat := 127

end Posterior.Value
