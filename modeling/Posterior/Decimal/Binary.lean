/-!
# Binary floating-point numbers as exact numbers

A double is either not a number, infinite, or an integer multiple of a power of two. Every exact
text in this library starts from that reading.

## Main definitions

* `Decimal.Binary` — a signed number `mantissa · 2 ^ exponent`
* `Decimal.Reading` — what the bits of a double stand for
* `Decimal.read` — the reading of a double
* `Decimal.roundDiv` — division rounded to the nearest integer, a half going to the even one
-/

namespace Posterior.Decimal

/-- The number `± mantissa · 2 ^ exponent`. -/
structure Binary where
  /-- Whether the sign is a minus; a zero has a sign too. -/
  negative : Bool
  /-- The integer that is scaled. -/
  mantissa : Nat
  /-- The power of two that scales it. -/
  exponent : Int
  deriving DecidableEq, Repr

/-- What the bits of a double stand for. -/
inductive Reading where
  /-- Not a number. -/
  | nan
  /-- Positive or negative infinity. -/
  | infinite (negative : Bool)
  /-- A number. -/
  | finite (number : Binary)
  deriving DecidableEq, Repr

/-- The exponent of the smallest positive double. -/
def minExponent : Int := -1074

/-- The hidden bit of a normal double's mantissa. -/
def hiddenBit : Nat := 0x10000000000000

/-- Splits the sign, the exponent field and the fraction of a double's bits. -/
def readBits (bits : Nat) : Reading :=
  let negative := 0x8000000000000000 ≤ bits
  let field : Nat := bits / hiddenBit % 2048
  let fraction := bits % hiddenBit
  if field = 2047 then
    if fraction = 0 then .infinite negative else .nan
  else if field = 0 then
    -- Below the normal doubles the hidden bit is not set.
    .finite ⟨negative, fraction, minExponent⟩
  else
    .finite ⟨negative, fraction + hiddenBit, (field : Int) - 1 + minExponent⟩

/-- The reading of a double. -/
def read (x : Float) : Reading := readBits x.toBits.toNat

/-- The integer nearest to `num / den`; a half goes to the even neighbour. -/
def roundDiv (num den : Nat) : Nat :=
  let q := num / den
  let r := num % den
  if 2 * r < den then q
  else if den < 2 * r then q + 1
  else if q % 2 = 0 then q else q + 1

/-- Rounding moves a quotient by at most half a unit. -/
theorem roundDiv_within (num : Nat) {den : Nat} (pos : 0 < den) :
    2 * (roundDiv num den * den) ≤ 2 * num + den ∧
      2 * num ≤ 2 * (roundDiv num den * den) + den := by
  have whole := Nat.div_add_mod' num den
  have next : (num / den + 1) * den = num / den * den + den := Nat.succ_mul ..
  have rest := Nat.mod_lt num pos
  simp only [roundDiv]
  split
  · omega
  · split
    · omega
    · split <;> omega

end Posterior.Decimal
