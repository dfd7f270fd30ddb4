import Posterior.Failure
import Posterior.Scalar

/-!
# Values

The values that programs compute with and that distributions range over. Two values are equal when
they have the same kind and the same content, where a float counts by its canonical bits: zero has
no sign, and everything that is not a number is one value.

## Main definitions

* `Value` — the values, with `Value.kind`
* `Value.same` — equality of values, also as `==`
* `Value.feed` — what a value feeds to a hash, so that equal values hash alike
* `Value.asBool?`, `Value.asInt?`, `Value.asNumber?` — reading a value at a kind
* `Value.distinct` — the first occurrences in a list
-/

namespace Posterior

/-- The values that programs compute with. -/
inductive Value where
  /-- The value without content. -/
  | unit
  /-- A truth value. -/
  | bool (b : Bool)
  /-- A 64-bit signed integer. -/
  | int (i : Int64)
  /-- A double. -/
  | float (x : Float)
  /-- A text. -/
  | str (s : String)
  /-- A list of values of any kinds. -/
  | list (items : List Value)

namespace Value

instance : Inhabited Value := ⟨unit⟩

/-- The name of a value's kind. -/
def kind : Value → String
  | unit => "unit"
  | bool _ => "bool"
  | int _ => "int"
  | float _ => "float"
  | str _ => "string"
  | list _ => "list"

/-! ### Equality -/

/-- The bits of a float up to equality of values: both zeros give those of `0`, and whatever is
not a number gives one pattern. -/
def canonicalBits (x : Float) : UInt64 :=
  if x == 0 then 0
  else if x.isNaN then 0x7ff8000000000000
  else x.toBits

mutual

/-- Equality of values. -/
def same : Value → Value → Bool
  | unit, unit => true
  | bool a, bool b => a == b
  | int a, int b => a == b
  | float a, float b => canonicalBits a == canonicalBits b
  | str a, str b => a == b
  | list a, list b => sameItems a b
  | _, _ => false

/-- Equality of lists of values, item by item. -/
def sameItems : List Value → List Value → Bool
  | [], [] => true
  | a :: as, b :: bs => same a b && sameItems as bs
  | _, _ => false

end

instance : BEq Value := ⟨same⟩

/-- One item of what a value feeds to a hash. -/
inductive Token where
  /-- The kind of the value that follows. -/
  | kind (index : Nat)
  /-- A truth value. -/
  | flag (b : Bool)
  /-- An integer. -/
  | whole (i : Int64)
  /-- Canonical bits of a float. -/
  | bits (b : UInt64)
  /-- A text. -/
  | text (s : String)
  /-- The length of the list that follows. -/
  | length (n : Nat)
  deriving DecidableEq, Hashable

mutual

/-- What a value feeds to a hash: its kind, then its content. -/
def feed : Value → List Token
  | unit => [.kind 0]
  | bool b => [.kind 1, .flag b]
  | int i => [.kind 2, .whole i]
  | float x => [.kind 3, .bits (canonicalBits x)]
  | str s => [.kind 4, .text s]
  | list items => .kind 5 :: .length items.length :: feedItems items

/-- What the items of a list feed to a hash, one after the other. -/
def feedItems : List Value → List Token
  | [] => []
  | v :: vs => feed v ++ feedItems vs

end

instance : Hashable Value := ⟨fun v => v.feed.foldl (fun h t => mixHash h (hash t)) 7⟩

/-- Whether a list holds a value equal to the given one. -/
def isIn (v : Value) (vs : List Value) : Bool := vs.any fun u => u == v

/-- The first occurrences in a list, added behind those already seen. -/
def distinctAfter (seen : List Value) : List Value → List Value
  | [] => seen
  | v :: vs => distinctAfter (if v.isIn seen then seen else seen ++ [v]) vs

/-- The first occurrences of the values in a list, in order. -/
def distinct (vs : List Value) : List Value := distinctAfter [] vs

/-! ### Reading a value at a kind -/

/-- The truth value, if this is one. -/
def asBool? : Value → Option Bool
  | bool b => some b
  | _ => none

/-- The integer, if this is one. -/
def asInt? : Value → Option Int64
  | int i => some i
  | _ => none

/-- The number, if this is one: integers are widened. -/
def asNumber? {X : Type} [Scalar X] : Value → Option X
  | int i => some (Scalar.ofInt i.toInt)
  | float x => some (Scalar.ofFloat x)
  | _ => none

/-- The truth value, or a mismatch reported for the operation that needed it. -/
def expectBool (operation : String) (v : Value) : Result Bool :=
  match v.asBool? with
  | some b => .ok b
  | none => .error (.typeMismatch operation "bool" v.kind)

/-- The number, or a mismatch reported for the operation that needed it. -/
def expectNumber {X : Type} [Scalar X] (operation : String) (v : Value) : Result X :=
  match (v.asNumber? : Option X) with
  | some x => .ok x
  | none => .error (.typeMismatch operation "number" v.kind)

end Value

end Posterior
