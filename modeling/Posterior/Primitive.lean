import Posterior.Program

/-!
# Primitive operations

Arithmetic, conjunction, display and calls of foreign functions. Each takes the continuation that
receives its result; when there is no result the continuation is not resumed.

Arithmetic on two integers is exact and fails where the result has more than 64 bits. Otherwise both
operands are widened.

## Main definitions

* `Value.plus`, `Value.minus`, `Value.times`, `Value.conj` — the results
* `Primitive.plus`, `Primitive.minus`, `Primitive.times`, `Primitive.conj`, `Primitive.display`,
  `Primitive.call` — the operations on programs
-/

namespace Posterior

namespace Value

/-- An integer as a 64-bit one, if it fits. -/
def fitInt? (i : Int) : Option Int64 :=
  if Int64.minValue.toInt ≤ i ∧ i ≤ Int64.maxValue.toInt then some (Int64.ofInt i) else none

/-- An arithmetic operation, given on integers and on doubles. -/
def arithmetic (operation : String) (ints : Int → Int → Int) (floats : Float → Float → Float)
    (x y : Value) : Result Value :=
  match x, y with
  | .int a, .int b =>
    match fitInt? (ints a.toInt b.toInt) with
    | some c => .ok (.int c)
    | none =>
      .error (.arithmetic
        (operation ++ " overflowed on " ++ a.toInt.repr ++ " and " ++ b.toInt.repr))
  | _, _ => do
    let a ← x.expectNumber operation
    let b ← y.expectNumber operation
    return .float (floats a b)

/-- The sum of two numbers, or one text after another. -/
def plus (x y : Value) : Result Value :=
  match x, y with
  | .str a, .str b => .ok (.str (a ++ b))
  | _, _ => arithmetic "plus" (· + ·) (· + ·) x y

/-- The difference of two numbers. -/
def minus (x y : Value) : Result Value := arithmetic "minus" (· - ·) (· - ·) x y

/-- The product of two numbers. -/
def times (x y : Value) : Result Value := arithmetic "times" (· * ·) (· * ·) x y

/-- The conjunction of two truth values; the second is looked at only if the first holds. -/
def conj (x y : Value) : Result Value := do
  if ← x.expectBool "and" then
    return .bool (← y.expectBool "and")
  else
    return .bool false

end Value

namespace Primitive

variable {X : Type} {S : Type → Type} {K : Type} [Resumable X S K]

/-- Continues with the sum, or with the concatenation of texts. -/
def plus (k : K) (x y : Value) : Action X S K := .continueWith k (x.plus y)

/-- Continues with the difference. -/
def minus (k : K) (x y : Value) : Action X S K := .continueWith k (x.minus y)

/-- Continues with the product. -/
def times (k : K) (x y : Value) : Action X S K := .continueWith k (x.times y)

/-- Continues with the conjunction. -/
def conj (k : K) (x y : Value) : Action X S K := .continueWith k (x.conj y)

/-- Displays a value and continues with the unit value. -/
def display (k : K) (x : Value) : Action X S K := .display x k

/-- Continues with the result of a function of values. -/
def call (k : K) (f : List Value → Result Value) (args : List Value) : Action X S K :=
  .continueWith k (f args)

end Primitive

end Posterior
