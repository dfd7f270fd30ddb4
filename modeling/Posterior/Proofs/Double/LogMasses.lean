import Posterior.Proofs.Double.Signed
import Posterior.Proofs.Double.Weights

/-!
# Log-masses that are doubles

The logarithm of a sum of masses is taken relative to the larger of the two log-masses. What is
added to that one is the logarithm of one more than an exponential, and since the exponential is of
what is not positive, this is between zero and one, whatever the two functions are otherwise. So a
sum of finite log-masses is finite: at the largest double a step is so wide that one more is rounded
away, and the difference, which may be infinite itself, only enters the exponential.

## Main definitions

* `Scalar.IsLogMass` — finite, or minus infinity
* `Elementary`, `Elementary.InRange` — an exponential function and a logarithm, and their ranges
* `LogDouble` — doubles, with these functions

## Main results

* `LogDouble.isFinite_sum` — finite log-masses have a finite sum
* `LogDouble.isFinite_logAddExp_iff`, `LogDouble.isLogMass_logAddExp` — log-masses add up to
  log-masses, and there is mass in a sum if there is some in one of the two
-/

namespace Posterior

/-- A finite number, or minus infinity. -/
def Scalar.IsLogMass {X : Type} [Scalar X] (x : X) : Prop := isFinite x = true ∨ eq x negInf = true

/-- The functions that sums of masses are computed with. -/
structure Elementary where
  /-- The exponential function. -/
  exp : Float → Float
  /-- The logarithm of one more than the argument. -/
  ln1p : Float → Float

/-- The exponential of what is not positive is between zero and one, and so is the logarithm of one
more than what is between zero and one. -/
structure Elementary.InRange (f : Elementary) : Prop where
  exp : ∀ x : Float, Scalar.le x Scalar.zero = true →
    Scalar.le Scalar.zero (f.exp x) = true ∧ Scalar.le (f.exp x) Scalar.one = true
  ln1p : ∀ x : Float, Scalar.le Scalar.zero x = true → Scalar.le x Scalar.one = true →
    Scalar.le Scalar.zero (f.ln1p x) = true ∧ Scalar.le (f.ln1p x) Scalar.one = true

/-- Doubles, with the given functions. -/
def LogDouble (_f : Elementary) : Type := Float

instance {f : Elementary} : Scalar (LogDouble f) :=
  { (inferInstance : Scalar Float) with
    exp := f.exp
    ln1p := f.ln1p }

/-- With the functions on doubles, the operations are those on doubles. -/
example : (inferInstance : Scalar (LogDouble ⟨Float.exp, Scalar.ln1pFloat⟩)) =
    (inferInstance : Scalar Float) := rfl

namespace LogDouble

open Double

variable {f : Elementary} {x y : Float} {a b : LogDouble f}

/-! ### Sums of finite log-masses -/

/-- What is added to the larger of two log-masses is between zero and one. -/
theorem exists_correction (ranges : f.InRange) (nonpos : Scalar.le x Scalar.zero = true) :
    ∃ r : ℝ, 0 ≤ r ∧ r ≤ 1 ∧ Denotes (f.ln1p (f.exp x)) r := by
  obtain ⟨least, most⟩ := ranges.exp x nonpos
  obtain ⟨least, most⟩ := ranges.ln1p _ least most
  have above : Scalar.le (X := Double Float.log) Scalar.zero (f.ln1p (f.exp x)) = true := least
  obtain ⟨v, amount⟩ := exists_amount_of_le above
  have le : v ≤ 1 := (le_iff Float.log amount amount_one).1 most
  obtain ⟨r, rfl, denotes⟩ := amount.exists_denotes (le.trans_lt (EReal.coe_lt_top 1)).ne
  exact ⟨r, EReal.coe_nonneg.1 amount.nonneg, by exact_mod_cast le, denotes⟩

/-- Finite log-masses have a finite sum: one more than the largest double is rounded to it. -/
theorem isFinite_sum (ranges : f.InRange) (hx : Scalar.isFinite x = true)
    (hy : Scalar.isFinite y = true) :
    Scalar.isFinite (Scalar.max x y + f.ln1p (f.exp (-Scalar.abs (x - y)))) = true := by
  obtain ⟨r, first⟩ := isFinite_iff.1 hx
  obtain ⟨t, second⟩ := isFinite_iff.1 hy
  obtain ⟨q, larger⟩ : ∃ q, Denotes (Scalar.max x y) q := by
    unfold Scalar.max
    split
    · exact ⟨t, second⟩
    · exact ⟨r, first⟩
  -- The difference may be infinite, but it is a number, so its exponential is in the range.
  obtain ⟨c, nonneg, le, correction⟩ :=
    exists_correction ranges (neg_abs_le_zero (first.sub second).ne_notANumber)
  have step : (2 : ℝ) ^ (971 : ℤ) = 2 * 2 ^ (970 : ℤ) := zpow_one_add₀ two_ne_zero 970
  have wide : (1 : ℝ) < 2 ^ (970 : ℤ) := one_lt_zpow₀ one_lt_two (by norm_num)
  have small : |q + c| < 2 ^ (1024 : ℤ) - 2 ^ (970 : ℤ) := by
    calc |q + c| ≤ |q| + |c| := abs_add_le q c
      _ ≤ 2 ^ (1024 : ℤ) - 2 ^ (971 : ℤ) + 1 := by
        rw [abs_of_nonneg nonneg]
        exact add_le_add (SignedForm.abs_le larger) le
      _ < 2 ^ (1024 : ℤ) - 2 ^ (970 : ℤ) := by
        rw [step]
        generalize (2 : ℝ) ^ (1024 : ℤ) = top, (2 : ℝ) ^ (970 : ℤ) = half at wide ⊢
        linarith
  exact (larger.add correction).isFinite (abs_nonneg _) small

/-! ### Sums of log-masses -/

theorem isFinite_zero : Scalar.isFinite (Scalar.zero : LogDouble f) = true := by
  change Scalar.isFinite (Scalar.zero : Float) = true
  decide +kernel

theorem isFinite_negInf : Scalar.isFinite (Scalar.negInf : LogDouble f) = false := by
  change Scalar.isFinite (Scalar.negInf : Float) = false
  decide +kernel

theorem isLogMass_negInf : Scalar.IsLogMass (Scalar.negInf : LogDouble f) := by
  refine .inr ?_
  change Scalar.eq (Scalar.negInf : Float) Scalar.negInf = true
  decide +kernel

theorem isFinite_of_eq_negInf (nothing : Scalar.eq x Scalar.negInf = true) :
    Scalar.isFinite x = false := by
  rw [Bool.eq_false_iff, ne_eq, isFinite_iff]
  rintro ⟨r, form⟩
  have same : x.toModel.unpack.compare (.infinity .negative) = some .eq := beq_iff_compare.1 nothing
  unfold Denotes at form
  generalize x.toModel.unpack = u at form same
  cases form <;> cases same

theorem isFinite_logAddExp_iff (ranges : f.InRange) (ha : Scalar.IsLogMass a)
    (hb : Scalar.IsLogMass b) : Scalar.isFinite (Scalar.logAddExp a b) = true ↔
      Scalar.isFinite a = true ∨ Scalar.isFinite b = true := by
  unfold Scalar.logAddExp
  split
  · next nothing =>
    have none : Scalar.isFinite a = false := isFinite_of_eq_negInf nothing
    simp [none]
  · next some =>
    have finite := ha.resolve_right some
    split
    · next nothing => simp [finite]
    · next some' =>
      have sum := isFinite_sum ranges finite (hb.resolve_right some')
      exact iff_of_true sum (.inl finite)

theorem isLogMass_logAddExp (ranges : f.InRange) (ha : Scalar.IsLogMass a)
    (hb : Scalar.IsLogMass b) : Scalar.IsLogMass (Scalar.logAddExp a b) := by
  by_cases finite : Scalar.isFinite a = true ∨ Scalar.isFinite b = true
  · exact .inl ((isFinite_logAddExp_iff ranges ha hb).2 finite)
  · -- Neither of them is finite, so the sum is the second one.
    obtain ⟨none, none'⟩ := not_or.1 finite
    unfold Scalar.logAddExp
    rw [if_pos (ha.resolve_left none)]
    exact hb

end LogDouble

end Posterior
