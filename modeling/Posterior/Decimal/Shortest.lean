import Posterior.Decimal.Binary

/-!
# The fewest decimal digits that read back

A decimal reads back to a double when it lies in the interval of reals that round to that double.
The digits are sought on grids of 1, 2, … 17 significant places: the first grid with a point in the
interval wins, of two such points the nearer one, and an exact tie is settled by the caller.

## Main definitions

* `Decimal.Digits` — a decimal number `coefficient · 10 ^ exponent`
* `Decimal.Interval` — the reals that round to a double, over a common denominator
* `Decimal.Tie` — which of two equally near decimals is taken
* `Decimal.shortest` — the shortest digits of a positive number
-/

namespace Posterior.Decimal

/-- The decimal number `coefficient · 10 ^ exponent`. -/
structure Digits where
  /-- The significant digits as one integer. -/
  coefficient : Nat
  /-- The power of ten that scales it. -/
  exponent : Int
  deriving DecidableEq, Repr

/-- Which of two equally near decimals is taken. -/
inductive Tie where
  /-- The larger one. -/
  | up
  /-- The one whose last digit is even. -/
  | even
  deriving DecidableEq, Repr

/-- The reals that round to one double, as numerators over a common denominator. -/
structure Interval where
  /-- Numerator of the lower end. -/
  low : Nat
  /-- Numerator of the double itself. -/
  value : Nat
  /-- Numerator of the upper end. -/
  high : Nat
  /-- The common denominator. -/
  den : Nat
  /-- Whether the ends themselves round to the double. -/
  closed : Bool
  deriving DecidableEq, Repr

/-- The interval of a positive double. Its ends lie half a unit in the last place away, below a
power of two a quarter, and they belong to it when the mantissa is even. -/
def Binary.interval (b : Binary) : Interval :=
  let up := Nat.pow 2 b.exponent.toNat
  let below := if b.mantissa = hiddenBit ∧ minExponent < b.exponent then 1 else 2
  { low := (4 * b.mantissa - below) * up
    value := 4 * b.mantissa * up
    high := (4 * b.mantissa + 2) * up
    den := 4 * Nat.pow 2 (-b.exponent).toNat
    closed := b.mantissa % 2 = 0 }

/-- Number of decimal digits of a positive integer. -/
def digitCount (n : Nat) : Nat := (Nat.toDigits 10 n).length

/-- The exponent `e` with `10 ^ e ≤ num / den < 10 ^ (e + 1)`. -/
def decimalExponent (num den : Nat) : Int :=
  if den ≤ num then
    digitCount (num / den) - 1
  else
    let d := digitCount (den / num)
    if den ≤ num * Nat.pow 10 (d - 1) then 1 - (d : Int) else -(d : Int)

/-- The point of the grid of multiples of `10 ^ p` that stands for the interval, if one lies in it:
a neighbour of the value, the nearer one where both do. -/
def Interval.onGrid (i : Interval) (tie : Tie) (p : Int) : Option Nat :=
  let scale := Nat.pow 10 (-p).toNat
  let unit := i.den * Nat.pow 10 p.toNat
  let inside := fun d : Nat =>
    if i.closed then i.low * scale ≤ d * unit ∧ d * unit ≤ i.high * scale
    else i.low * scale < d * unit ∧ d * unit < i.high * scale
  -- Only the neighbours of the value can be its nearest point on the grid.
  let below := i.value * scale / unit
  let rest := 2 * (i.value * scale % unit)
  if inside below then
    if inside (below + 1) then
      if rest < unit then some below
      else if unit < rest then some (below + 1)
      else match tie with
        | .up => some (below + 1)
        | .even => if below % 2 = 0 then some below else some (below + 1)
    else some below
  else if inside (below + 1) then some (below + 1)
  else none

/-- Removes factors of ten from the coefficient without changing the number. -/
def stripZeros (coefficient : Nat) (exponent : Int) : Digits :=
  if h : 0 < coefficient ∧ coefficient % 10 = 0 then
    stripZeros (coefficient / 10) (exponent + 1)
  else
    ⟨coefficient, exponent⟩
termination_by coefficient
decreasing_by omega

/-- The shortest digits that read back to a positive number. -/
def shortest (tie : Tie) (b : Binary) : Digits :=
  let i := b.interval
  let e := decimalExponent i.value i.den
  let found := (List.range 17).findSome? fun (n : Nat) =>
    let p := e - n
    (i.onGrid tie p).map fun d => stripZeros d p
  found.getD ⟨0, 0⟩

end Posterior.Decimal
