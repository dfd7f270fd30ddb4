import Posterior.Decimal.Notation

/-!
# Decimals scaled in double arithmetic

A decimal becomes a double without exact arithmetic in two steps: as many leading digits as fit a
word are rounded to a double, and that is multiplied or divided by powers of ten. Each step rounds,
so the result need not be the double nearest to the decimal. Where the digits and the power of ten
are doubles themselves, only one step rounds and the result is the nearest one.

## Main definitions

* `Decimal.digitsValue` — the integer that digits stand for
* `Decimal.takeDigits` — digits appended to an integer as long as it fits a word
* `Decimal.leading` — the leading digits of a decimal that fit a word
* `Decimal.Digits.scaled?` — the double that scaling leads to
-/

namespace Posterior.Decimal

/-- The integer that a digit stands for. -/
def digitValue (d : Char) : Nat := d.toNat - '0'.toNat

/-- The integer that a sequence of digits stands for. -/
def digitsValue (ds : List Char) : Nat := ds.foldl (fun n d => 10 * n + digitValue d) 0

/-- Appends digits to an integer as long as it fits a word. The second part is their number. -/
def takeDigits (n : Nat) : List Char → Nat × Nat
  | [] => (n, 0)
  | d :: ds =>
    let m := 10 * n + digitValue d
    if m < UInt64.size then
      let (k, taken) := takeDigits m ds
      (k, taken + 1)
    else (n, 0)

/-- What digits were taken into fits a word. -/
theorem takeDigits_lt {n : Nat} (fits : n < UInt64.size) (ds : List Char) :
    (takeDigits n ds).1 < UInt64.size := by
  induction ds generalizing n with
  | nil => exact fits
  | cons d ds ih =>
    simp only [takeDigits]
    split
    · rename_i next
      exact ih next
    · exact fits

/-- The leading digits of `whole.fraction · 10 ^ exponent` that fit a word. A digit that does not
fit counts as a zero before the point, and after it as nothing. -/
def leading (whole fraction : List Char) (exponent : Int) : Digits :=
  let (n, kept) := takeDigits 0 whole
  let (n, places) := takeDigits n fraction
  ⟨n, exponent + (whole.length - kept : Nat) - places⟩

example : leading ['0'] ['0', '1', '5'] 7 = ⟨15, 4⟩ := by decide +kernel

example : leading "18446744073709551616".toList "5".toList 0 = ⟨18446744073709551615, 0⟩ := by
  decide +kernel

/-- The double nearest to `10 ^ k`: infinite from `10 ^ 309` on. -/
def tenTo (k : Nat) : Float := toFloat false 1 k

/-- Division by `10 ^ k`, in steps of finite divisors and until nothing is left. -/
def divideTen (x : Float) (k : Nat) : Float :=
  if k ≤ 308 then x / tenTo k
  else if x == 0 then x
  else divideTen (x / tenTo 308) (k - 308)
termination_by k
decreasing_by omega

/-- The double that scaling the rounded digits leads to, unless that is infinite. -/
def Digits.scaled? (d : Digits) : Option Float :=
  let x := toFloat false d.coefficient 0
  match d.exponent with
  | .negSucc k => some (divideTen x (k + 1))
  | .ofNat k =>
    if d.coefficient = 0 then some x
    else
      let y := x * tenTo k
      if y.isInf then none else some y

-- the divisor is no double, so two steps round
example : (Digits.scaled? ⟨1, -23⟩).map Float.toBits = some 0x3b282db34012b252 := by decide +kernel

example : (Digits.scaled? ⟨0, 400⟩).map Float.toBits = some 0 := by decide +kernel

example : Digits.scaled? ⟨2, 308⟩ = none := by decide +kernel

end Posterior.Decimal
