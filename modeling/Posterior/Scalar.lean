import Posterior.Decimal.Notation

/-!
# Arithmetic of masses and log-masses

Inference adds logarithms of probabilities, exponentiates them and compares the results. It does so
through the operations below, so that the same definitions run on doubles and can be read over any
other arithmetic, exact reals included.

## Main definitions

* `Scalar` — the operations on masses and log-masses
* `Scalar.isNaN`, `Scalar.isFinite`, `Scalar.sum` — what follows from them
* `Scalar.logAddExp` — the log-mass of two masses together
* the instance for `Float`
-/

namespace Posterior

/-- The operations on masses and log-masses. Comparisons are Boolean: something that is not a number
is neither less than, nor equal to, anything. -/
class Scalar (X : Type) extends Add X, Sub X, Mul X, Div X, Neg X where
  /-- A count as a scalar. -/
  ofNat : Nat → X
  /-- An integer as a scalar, rounded where it does not fit. -/
  ofInt : Int → X
  /-- A double as a scalar. -/
  ofFloat : Float → X
  /-- The logarithm of no mass. -/
  negInf : X
  /-- More than any finite scalar. -/
  posInf : X
  /-- Numerical equality. -/
  eq : X → X → Bool
  /-- Numerical order. -/
  lt : X → X → Bool
  /-- The exponential function. -/
  exp : X → X
  /-- The natural logarithm. -/
  ln : X → X
  /-- The natural logarithm of one more than the argument. -/
  ln1p : X → X
  /-- The exact text of a scalar, as messages show it. -/
  text : X → String
  /-- The text of a scalar rounded to a number of places. -/
  fixedText : Nat → X → String

namespace Scalar

variable {X : Type} [Scalar X]

/-- The scalar zero: no mass, and the logarithm of all of it. -/
def zero : X := ofNat 0

/-- The scalar one: all the mass. -/
def one : X := ofNat 1

/-- What differs from itself is not a number. -/
def isNaN (x : X) : Bool := !eq x x

/-- Strictly between the infinities. -/
def isFinite (x : X) : Bool := lt negInf x && lt x posInf

/-- Less than or equal to. -/
def le (x y : X) : Bool := lt x y || eq x y

/-- The larger of two scalars. -/
def max (x y : X) : X := if lt x y then y else x

/-- The magnitude of a scalar. -/
def abs (x : X) : X := if lt x zero then -x else x

/-- The sum from left to right. -/
def sum (xs : List X) : X := xs.foldl (· + ·) zero

/-- The logarithm of `exp a + exp b`, taken relative to the larger of the two so that nothing
underflows. No mass is neutral on either side. -/
def logAddExp (a b : X) : X :=
  -- Without these cases two log-masses of nothing would be subtracted from each other.
  if eq a negInf then b
  else if eq b negInf then a
  else max a b + ln1p (exp (-abs (a - b)))

/-- No mass is neutral, in any arithmetic in which it can be told. -/
theorem logAddExp_negInf (told : eq (negInf : X) negInf = true) (a : X) :
    logAddExp negInf a = a :=
  if_pos told

end Scalar

/-- The logarithm of one more than a double, accurate for small arguments: the rounding error of
`1 + x` cancels in the quotient. -/
def Scalar.ln1pFloat (x : Float) : Float :=
  let u := 1 + x
  if u == 1 then x else u.log * x / (u - 1)

/-- The natural logarithm of a double; that of either zero is minus infinity. -/
def Scalar.lnFloat (x : Float) : Float := if x == 0 then -1 / 0 else x.log

/-- Doubles, with their rounding. -/
instance : Scalar Float where
  ofNat n := Float.ofNat n
  ofInt n := Float.ofInt n
  ofFloat x := x
  negInf := -1 / 0
  posInf := 1 / 0
  eq x y := x == y
  lt x y := x < y
  exp := Float.exp
  ln := Scalar.lnFloat
  ln1p := Scalar.ln1pFloat
  text := Decimal.write Decimal.plain
  fixedText := Decimal.fixed

end Posterior
