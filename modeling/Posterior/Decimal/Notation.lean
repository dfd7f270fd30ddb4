import Posterior.Decimal.Shortest

/-!
# Written forms of numbers

Each output that shows a number fixes its form by a record: where positional notation ends, whether
an integer keeps a point, which of two equally short decimals is taken, and the words for what is
not a number. Fixed places round the exact value, a half going to the even digit.

## Main definitions

* `Decimal.Style` — the decisions of a shortest form
* `Decimal.plain` — the form used in messages and value texts
* `Decimal.data` — the form used in data texts
* `Decimal.write` — a double in a given style
* `Decimal.fixed` — a double to a fixed number of places
* `Decimal.toFloat` — the double nearest to a decimal number
-/

namespace Posterior.Decimal

/-- The decisions of a shortest written form. -/
structure Style where
  /-- Which of two equally near shortest decimals is taken. -/
  tie : Tie
  /-- Whether a number with its point after that many digits is written without an exponent. -/
  positional : Int → Bool
  /-- Whether a positional integer ends in a point and a zero. -/
  pointed : Bool

/-- Messages and value texts never use an exponent and write integers bare; a tie goes up. -/
def plain : Style := ⟨.up, fun _ => true, false⟩

/-- Data texts are positional from `0.00001` up to sixteen digits before the point, positional
integers keep `.0`, and a tie goes to the even digit. -/
def data : Style := ⟨.even, fun point => -5 < point && point ≤ 16, true⟩

/-- That many zeros. -/
def zeros (n : Nat) : String := String.ofList (List.replicate n '0')

/-- An integer with its sign, also where that is a plus. -/
def signed (i : Int) : String := (if 0 ≤ i then "+" else "-") ++ i.natAbs.repr

/-- A decimal number in a style, without its sign. An exponent has a sign. -/
def Style.layout (s : Style) (d : Digits) : String :=
  let text := Nat.repr d.coefficient
  let point : Int := text.length + d.exponent
  let cut := fun (n : Nat) (mark : String) =>
    String.ofList (text.toList.take n) ++ mark ++ String.ofList (text.toList.drop n)
  if s.positional point then
    if 0 ≤ d.exponent then
      text ++ zeros d.exponent.toNat ++ (if s.pointed then ".0" else "")
    else if 0 < point then
      cut point.toNat "."
    else
      "0." ++ zeros (-point).toNat ++ text
  else
    (if text.length = 1 then text else cut 1 ".") ++ "e" ++ signed (point - 1)

/-- A finite number in a style. -/
def Style.number (s : Style) (b : Binary) : String :=
  (if b.negative then "-" else "") ++
    (if b.mantissa = 0 then s.layout ⟨0, 0⟩ else s.layout (shortest s.tie b))

example : plain.number ⟨false, 1, -1⟩ = "0.5" := by decide +kernel

example : plain.number ⟨true, 0, minExponent⟩ = "-0" := by decide +kernel

example : data.number ⟨false, hiddenBit, 1⟩ = "9007199254740992.0" := by decide +kernel

-- an exact tie between two decimals of the same length
example : plain.number ⟨false, hiddenBit, -77⟩ = "0.000000029802322387695313" := by decide +kernel

example : data.number ⟨false, hiddenBit, -77⟩ = "2.9802322387695312e-8" := by decide +kernel

example : data.number ⟨false, hiddenBit, 2⟩ = "1.8014398509481984e+16" := by decide +kernel

/-- A double in a style. -/
def write (s : Style) (x : Float) : String :=
  match read x with
  | .nan => "NaN"
  | .infinite negative => if negative then "-inf" else "inf"
  | .finite b => s.number b

/-- The nearest integer to `mantissa · 2 ^ exponent · 10 ^ places`. -/
def Binary.scaled (b : Binary) (places : Nat) : Nat :=
  roundDiv (b.mantissa * Nat.pow 2 b.exponent.toNat * Nat.pow 10 places)
    (Nat.pow 2 (-b.exponent).toNat)

/-- A double to a fixed number of places; what rounds to zero has no sign. -/
def fixed (places : Nat) (x : Float) : String :=
  match read x with
  | .nan => "NaN"
  | .infinite negative => if negative then "-inf" else "inf"
  | .finite b =>
    let n := b.scaled places
    let whole := Nat.repr (n / Nat.pow 10 places)
    let part := Nat.repr (n % Nat.pow 10 places)
    (if b.negative && n != 0 then "-" else "") ++ whole ++ "." ++
      zeros (places - part.length) ++ part

/-- The double nearest to `± coefficient · 10 ^ exponent`: infinite beyond the largest double, zero
well below the smallest one. -/
def toFloat (negative : Bool) (coefficient : Nat) (exponent : Int) : Float :=
  let magnitude : Float :=
    if coefficient = 0 then 0
    else
      let point := digitCount coefficient + exponent
      if 310 < point then Float.ofBits 0x7ff0000000000000
      else if point < -330 then 0
      else Float.ofScientific coefficient (exponent < 0) exponent.natAbs
  if negative then -magnitude else magnitude

end Posterior.Decimal
