import Mathlib.Algebra.Order.Ring.Nat
import Posterior.Proofs.JsonTexts

/-!
# Data texts of doubles are numbers

The shortest digits of a positive double form a positive integer, since a grid that is fine enough
to hold a point near the double does not put zero in its place. So no zero leads them, and in each
of the forms that a data text gives to digits and a power of ten it is read as one number, up to its
end. Which double that number is read as is a matter of arithmetic and not settled here.

## Main definitions

* `Decimal.IsFine` — grids of decimals that are no coarser than a quotient
* `Decimal.Digits.Proper` — decimal numbers whose digits have no leading zero

## Main results

* `Decimal.isFine_decimalExponent` — a quotient is at least ten to its decimal exponent
* `Decimal.shortest_proper` — the shortest digits of a positive number have no leading zero
* `Decimal.exists_readNumeral_number` — the data text of a finite double is a number
-/

namespace Posterior.Decimal

/-! ### Shortest digits -/

theorem digitCount_le_iff {n k : Nat} (pos : 0 < k) : digitCount n ≤ k ↔ n < 10 ^ k :=
  Nat.length_toDigits_le_iff (by decide) pos

theorem digitCount_pos (n : Nat) : 0 < digitCount n := Nat.length_toDigits_pos

/-- A positive number is not less than the power of ten that has as many digits. -/
theorem pow_le_of_digitCount {n : Nat} (pos : 0 < n) : 10 ^ (digitCount n - 1) ≤ n := by
  by_contra less
  rcases Nat.eq_zero_or_pos (digitCount n - 1) with one | more
  · simp [one] at less
    omega
  · have := (digitCount_le_iff more).2 (not_le.1 less)
    have := digitCount_pos n
    omega

theorem lt_pow_digitCount (n : Nat) : n < 10 ^ digitCount n :=
  (digitCount_le_iff (digitCount_pos n)).1 le_rfl

/-- The multiples of `10 ^ p` are a grid no coarser than a quotient: `10 ^ p ≤ num / den`. -/
def IsFine (num den : Nat) (p : Int) : Prop := den * 10 ^ p.toNat ≤ num * 10 ^ (-p).toNat

/-- A quotient is at least ten to its decimal exponent. -/
theorem isFine_decimalExponent {num den : Nat} (positive : 0 < num) (divisor : 0 < den) :
    IsFine num den (decimalExponent num den) := by
  simp only [IsFine, decimalExponent, Nat.pow_eq]
  split_ifs with whole close
  · have digits := digitCount_pos (num / den)
    have high : ((digitCount (num / den) : Int) - 1).toNat = digitCount (num / den) - 1 := by omega
    have low : (-((digitCount (num / den) : Int) - 1)).toNat = 0 := by omega
    rw [high, low, pow_zero, mul_one]
    calc den * 10 ^ (digitCount (num / den) - 1) ≤ den * (num / den) :=
          Nat.mul_le_mul_left _ (pow_le_of_digitCount (Nat.div_pos whole divisor))
      _ ≤ num := Nat.mul_div_le ..
  · have digits := digitCount_pos (den / num)
    generalize digitCount (den / num) = k at close digits
    have high : (1 - (k : Int)).toNat = 0 := by omega
    have low : (-(1 - (k : Int))).toNat = k - 1 := by omega
    rwa [high, low, pow_zero, mul_one]
  · have high : (-(digitCount (den / num) : Int)).toNat = 0 := by omega
    have low : (- -(digitCount (den / num) : Int)).toNat = digitCount (den / num) := by omega
    rw [high, low, pow_zero, mul_one]
    calc den ≤ num * (den / num + 1) := (Nat.lt_mul_div_succ den positive).le
      _ ≤ num * 10 ^ digitCount (den / num) := Nat.mul_le_mul_left _ (lt_pow_digitCount _)

/-- What is fine enough is so on every finer grid. -/
theorem IsFine.mono {num den : Nat} {e p : Int} (fine : IsFine num den e) (finer : p ≤ e) :
    IsFine num den p :=
  calc den * 10 ^ p.toNat ≤ den * 10 ^ e.toNat :=
        Nat.mul_le_mul_left _ (Nat.pow_le_pow_right (by decide) (by omega))
    _ ≤ num * 10 ^ (-e).toNat := fine
    _ ≤ num * 10 ^ (-p).toNat :=
        Nat.mul_le_mul_left _ (Nat.pow_le_pow_right (by decide) (by omega))

/-- A grid that is not coarser than the value has no zero in its place. -/
theorem Interval.onGrid_pos {i : Interval} {tie : Tie} {p : Int} {d : Nat} (divisor : 0 < i.den)
    (fine : IsFine i.value i.den p) (h : i.onGrid tie p = some d) : 0 < d := by
  have below : 0 < i.value * Nat.pow 10 (-p).toNat / (i.den * Nat.pow 10 p.toNat) :=
    Nat.div_pos fine (Nat.mul_pos divisor (Nat.pow_pos (by decide)))
  simp only [Interval.onGrid] at h
  -- What stands for the interval is the quotient or its successor.
  generalize i.value * Nat.pow 10 (-p).toNat / (i.den * Nat.pow 10 p.toNat) = q at below h
  repeat' split at h
  all_goals simp only [Option.some.injEq, reduceCtorEq] at h
  all_goals omega

/-- A positive number stays positive without its trailing zeros. -/
theorem stripZeros_pos {c : Nat} (pos : 0 < c) (e : Int) : 0 < (stripZeros c e).coefficient := by
  induction c using Nat.strongRecOn generalizing e with
  | ind c ih =>
    rw [stripZeros]
    split
    · exact ih _ (by omega) (by omega) _
    · exact pos

/-- A decimal number whose digits do not start with a zero that is followed by others. -/
def Digits.Proper (d : Digits) : Prop := 0 < d.coefficient ∨ d.exponent = 0

/-- The shortest digits of a positive number do not start with a zero. -/
theorem shortest_proper {b : Binary} (positive : 0 < b.mantissa) (tie : Tie) :
    (shortest tie b).Proper := by
  have value : 0 < b.interval.value := Nat.mul_pos (by omega) (Nat.pow_pos (by decide))
  have divisor : 0 < b.interval.den := Nat.mul_pos (by decide) (Nat.pow_pos (by decide))
  simp only [shortest]
  cases found : (List.range 17).findSome? fun (n : Nat) =>
      (b.interval.onGrid tie (decimalExponent b.interval.value b.interval.den - n)).map
        fun d => stripZeros d (decimalExponent b.interval.value b.interval.den - n) with
  | none => exact .inr rfl
  | some d =>
    obtain ⟨n, -, h⟩ := List.exists_of_findSome?_eq_some found
    obtain ⟨c, grid, rfl⟩ := Option.map_eq_some_iff.1 h
    have fine := (isFine_decimalExponent value divisor).mono
      (p := decimalExponent b.interval.value b.interval.den - n) (by omega)
    exact .inl (stripZeros_pos (Interval.onGrid_pos divisor fine grid) _)

/-! ### Texts of numbers -/

open Json

theorem isDigit_of_mem_replicate {n : Nat} {c : Char} (h : c ∈ List.replicate n '0') :
    c.isDigit = true := by
  rw [List.eq_of_mem_replicate h]
  rfl

/-- Zeros behind the digits of a number leave them digits that a number can start with. -/
theorem Digits.Proper.whole {d : Digits} (proper : d.Proper) :
    Whole (Nat.toDigits 10 d.coefficient ++ List.replicate d.exponent.toNat '0') where
  nonempty := by simp
  digits c h := (List.mem_append.1 h).elim isDigit_of_mem_toDigits isDigit_of_mem_replicate
  short leading := by
    rw [List.head?_append_of_ne_nil _ Nat.toDigits_ne_nil] at leading
    rcases proper with positive | integer
    · exact absurd leading (head?_toDigits positive)
    · simpa [integer] using (whole_toDigits d.coefficient).short leading

/-- The first digits of a number are digits that a number can start with. -/
theorem whole_take {ds : List Char} (whole : Whole ds) {n : Nat} (taken : 0 < n) :
    Whole (ds.take n) where
  nonempty := by
    have := whole.nonempty
    cases ds <;> cases n <;> simp_all
  digits c h := whole.digits c (List.mem_of_mem_take h)
  short leading := by
    have := whole.short (by rwa [List.head?_take, if_neg (by omega)] at leading)
    rw [List.length_take]
    omega

/-- Digits, a point and more digits are read as a number, before an exponent and at the end. -/
theorem exists_readMagnitude (negative : Bool) {text : List Char} (ds fs t : List Char)
    {e : Option Int} (form : text = ds ++ '.' :: (fs ++ t)) (whole : Whole ds) (nonempty : fs ≠ [])
    (digits : ∀ c ∈ fs, c.isDigit = true) (stop : ∀ c ∈ t.head?, c.isDigit = false)
    (exponent : readExponent t = some (e, [])) :
    ∃ n, readMagnitude negative text = some (n, []) := by
  have fraction : readFraction ('.' :: (fs ++ t)) = some (some fs, t) := by
    rw [readFraction, readDigits_append nonempty digits stop, Option.map_some]
  rw [form]
  exact ⟨_, readMagnitude_append negative whole (by simp) fraction exponent⟩

/-- An exponent is read back, whatever its sign. -/
theorem exists_readExponent (i : Int) :
    ∃ e, readExponent ('e' :: (signed i).toList) = some (some e, []) := by
  have read : readDigits (Nat.toDigits 10 i.natAbs) = some (Nat.toDigits 10 i.natAbs, []) := by
    simpa using readDigits_append (t := []) Nat.toDigits_ne_nil
      (fun _ => isDigit_of_mem_toDigits (n := i.natAbs)) (by simp)
  unfold signed
  split_ifs
  · exact ⟨_, by simp [readExponent, readSigned, read]; rfl⟩
  · exact ⟨_, by simp [readExponent, readSigned, read]; rfl⟩

/-- The digits of a number, cut somewhere inside, are read with a point between the parts. -/
theorem exists_readMagnitude_cut (negative : Bool) {ds t : List Char} {n : Nat} {e : Option Int}
    (whole : Whole ds) (taken : 0 < n) (inside : n < ds.length)
    (stop : ∀ c ∈ t.head?, c.isDigit = false) (exponent : readExponent t = some (e, [])) :
    ∃ m, readMagnitude negative (ds.take n ++ '.' :: (ds.drop n ++ t)) = some (m, []) :=
  exists_readMagnitude negative _ _ _ rfl (whole_take whole taken)
    (by rw [ne_eq, List.drop_eq_nil_iff]; omega)
    (fun c h => whole.digits c (List.mem_of_mem_drop h)) stop exponent

/-- The data text of a number is read up to its end, in each of its five forms. -/
theorem exists_readMagnitude_layout (negative : Bool) {d : Digits} (proper : d.Proper) :
    ∃ n, readMagnitude negative (data.layout d).toList = some (n, []) := by
  have whole := whole_toDigits d.coefficient
  have padded := proper.whole
  have digits : d.coefficient.repr.toList = Nat.toDigits 10 d.coefficient := by simp
  have count : d.coefficient.repr.length = (Nat.toDigits 10 d.coefficient).length := by
    rw [← digits, String.length_toList]
  simp only [Style.layout, count, digits]
  generalize Nat.toDigits 10 d.coefficient = ds at whole padded digits count
  obtain ⟨e, exponent⟩ := exists_readExponent (ds.length + d.exponent - 1)
  have length := List.length_pos_iff.2 whole.nonempty
  split_ifs with positional integer pointed inside single
  · -- zeros behind the digits, and a zero behind the point
    exact exists_readMagnitude negative _ ['0'] [] (by simp [digits, zeros]) padded (by simp)
      (by simp) (by simp) rfl
  · exact absurd rfl pointed
  · -- a point among the digits
    simpa using exists_readMagnitude_cut negative (t := []) whole
      (n := (ds.length + d.exponent).toNat) (by omega) (by omega) (by simp) rfl
  · -- a zero before the point, and zeros before the digits
    refine exists_readMagnitude negative ['0'] _ [] (by simp [digits, zeros]; rfl)
      ⟨by simp, by simp, by simp⟩ (by simp [whole.nonempty]) (fun c h => ?_) (by simp) rfl
    exact (List.mem_append.1 h).elim isDigit_of_mem_replicate (whole.digits c)
  · -- one digit and an exponent
    have text : (d.coefficient.repr ++ "e" ++ signed (ds.length + d.exponent - 1)).toList =
        ds ++ 'e' :: (signed (ds.length + d.exponent - 1)).toList := by
      simp [digits]
    rw [text]
    exact ⟨_, readMagnitude_append negative whole (by simp) (readFraction.eq_2 _ (by simp))
      exponent⟩
  · -- a point behind the first digit, and an exponent
    simpa using exists_readMagnitude_cut negative whole (n := 1) (by omega) (by omega) (by simp)
      exponent

/-! ### Texts of doubles -/

/-- The data text of a finite double is a number. -/
theorem exists_readNumeral_number (b : Binary) :
    ∃ n, readNumeral (data.number b).toList = some (n, []) := by
  obtain ⟨d, proper, text⟩ : ∃ d : Digits, d.Proper ∧ (data.number b).toList =
      (if b.negative then ['-'] else []) ++ (data.layout d).toList := by
    by_cases zero : b.mantissa = 0
    · exact ⟨⟨0, 0⟩, .inr rfl, by cases h : b.negative <;> simp [Style.number, zero, h]⟩
    · exact ⟨_, shortest_proper (Nat.pos_of_ne_zero zero) data.tie, by
        cases h : b.negative <;> simp [Style.number, zero, h]⟩
  obtain ⟨n, read⟩ := exists_readMagnitude_layout b.negative proper
  refine ⟨n, ?_⟩
  rw [text]
  cases sign : b.negative with
  | true => simpa [readNumeral, sign] using read
  | false =>
    have unsigned (r : List Char) (h : (data.layout d).toList = '-' :: r) : False := by
      simp [h, readMagnitude, readWhole, readDigits] at read
    rw [sign] at read
    simp [readNumeral.eq_2 _ unsigned, read]

end Posterior.Decimal
