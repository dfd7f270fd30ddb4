import Mathlib.Data.EReal.Inv
import Posterior.Proofs.Choices
import Posterior.Proofs.Double.Arithmetic

/-!
# Weights that are doubles

Weights that are accepted are finite amounts. Their sum is computed with rounding, and it may be
infinite, but rounding never brings it below one of them.

## Main definitions

* `Double` — doubles, with any function as their logarithm

## Main results

* `Double.exists_sum` — a sum dominates its terms
* `Double.weights_of_validate` — what is known of weights that are accepted
-/

namespace Posterior

/-- Doubles, with the given function as their logarithm. -/
def Double (_ln : Float → Float) : Type := Float

/-- The logarithm of either zero is minus infinity, whatever the function. -/
instance {ln : Float → Float} : Scalar (Double ln) :=
  { (inferInstance : Scalar Float) with
    ln := fun x : Float => if x == 0 then (-1 / 0 : Float) else ln x }

/-- With the natural logarithm, the operations are those on doubles. -/
example : (inferInstance : Scalar (Double Float.log)) = (inferInstance : Scalar Float) := rfl

namespace Double

variable {ln : Float → Float} {x y : Float} {v w : EReal}

/-! ### Comparisons -/

variable (ln) in
theorem lt_iff (first : Amount x v) (second : Amount y w) :
    Scalar.lt (X := Double ln) x y = true ↔ v < w := by
  change decide (x < y) = true ↔ _
  rw [decide_eq_true_iff, first.lt_iff second]

variable (ln) in
theorem eq_iff (first : Amount x v) (second : Amount y w) :
    Scalar.eq (X := Double ln) x y = true ↔ v = w := by
  change (x == y) = true ↔ _
  rw [first.beq_iff second]

variable (ln) in
theorem le_iff (first : Amount x v) (second : Amount y w) :
    Scalar.le (X := Double ln) x y = true ↔ v ≤ w := by
  change (Scalar.lt (X := Double ln) x y || Scalar.eq (X := Double ln) x y) = true ↔ _
  rw [Bool.or_eq_true, lt_iff ln first second, eq_iff ln first second, le_iff_lt_or_eq]

theorem amount_one : Amount (Scalar.one : Double ln) 1 := by
  have one := Amount.ofNat 1
  have value : IsValue ((1 : ℕ) : ℝ) := Amount.isValue_natCast (by norm_num)
  rw [value.nearest_eq, Nat.cast_one] at one
  exact one

theorem amount_posInf : Amount (Scalar.posInf : Double ln) ⊤ := by
  have unpacked : (Scalar.posInf : Float).toModel.unpack = .infinity .positive := rfl
  change Amount (Scalar.posInf : Float) ⊤
  rw [Amount, unpacked]
  exact .top

/-- A finite scalar that is not below zero is a finite amount. -/
theorem exists_amount (finite : Scalar.isFinite (X := Double ln) x = true)
    (nonneg : Scalar.lt (X := Double ln) x Scalar.zero = false) : ∃ v, Amount x v ∧ v ≠ ⊤ := by
  obtain ⟨above, below⟩ := Bool.and_eq_true_iff.1 finite
  have above : decide (-1 / 0 < x) = true := above
  have notBelow : decide (x < 0) = false := nonneg
  have number := number_of_compare (lt_iff_compare.1 (of_decide_eq_true above))
  obtain ⟨v, amount⟩ := Amount.exists_of_not_lt number (of_decide_eq_false notBelow)
  exact ⟨v, amount, ((lt_iff ln amount amount_posInf).1 below).ne⟩

/-- What is not below zero by comparison is an amount. -/
theorem exists_amount_of_le (le : Scalar.le (X := Double ln) Scalar.zero x = true) :
    ∃ v, Amount x v := by
  have compared : ∃ o, o ≠ .gt ∧ (0 : Float).toModel.unpack.compare x.toModel.unpack = some o := by
    rcases Bool.or_eq_true_iff.1 le with above | same
    · have above : decide (0 < x) = true := above
      exact ⟨.lt, by decide, lt_iff_compare.1 (of_decide_eq_true above)⟩
    · exact ⟨.eq, by decide, beq_iff_compare.1 same⟩
  obtain ⟨o, notBelow, compared⟩ := compared
  -- What compares with zero is a number, and it would compare otherwise if it were below.
  apply Amount.exists_of_not_lt (number_of_compare compared)
  intro below
  rw [lt_iff_compare] at below
  rw [Amount.unpack_zero] at compared below
  generalize x.toModel.unpack = u at compared below
  cases u with
  | notANumber => cases compared
  | zero s => cases below
  | infinity s | finite s =>
    cases s with
    | positive => cases below
    | negative =>
      cases compared
      exact notBelow rfl

/-! ### Sums -/

/-- A sum is not below what it starts from, nor below any of its terms. -/
theorem exists_foldl (start : Amount x v) {ws : List Float} (all : ∀ w ∈ ws, ∃ c, Amount w c) :
    ∃ t, Amount (ws.foldl (· + ·) x) t ∧ v ≤ t ∧ ∀ w ∈ ws, ∀ c, Amount w c → c ≤ t := by
  induction ws generalizing x v with
  | nil => exact ⟨v, start, le_rfl, fun w hw => absurd hw List.not_mem_nil⟩
  | cons w ws ih =>
    obtain ⟨⟨c, term⟩, others⟩ := List.forall_mem_cons.1 all
    obtain ⟨t, total, before, after⟩ := ih (start.add term) others
    -- Rounding does not bring a sum below either of the two that are added.
    have kept := start.isValue.le_nearest (le_add_of_nonneg_right term.nonneg)
    have added := term.isValue.le_nearest (le_add_of_nonneg_left start.nonneg)
    refine ⟨t, total, kept.trans before, List.forall_mem_cons.2 ⟨?_, after⟩⟩
    intro c' term'
    rw [← term'.exactFloat_eq, term.exactFloat_eq]
    exact added.trans before

/-- The sum of amounts is an amount, and not below any of them. -/
theorem exists_sum {ws : List (Double ln)} (all : ∀ w ∈ ws, ∃ c, Amount w c) :
    ∃ t, Amount (Scalar.sum ws) t ∧ ∀ w ∈ ws, ∀ c, Amount w c → c ≤ t := by
  obtain ⟨t, total, -, dominates⟩ := exists_foldl Amount.zero all
  exact ⟨t, total, dominates⟩

/-- Nothing adds up to nothing. -/
theorem foldl_eq_zero (start : Amount x 0) {ws : List Float} (all : ∀ w ∈ ws, Amount w 0) :
    Amount (ws.foldl (· + ·) x) 0 := by
  induction ws generalizing x with
  | nil => exact start
  | cons w ws ih =>
    obtain ⟨first, others⟩ := List.forall_mem_cons.1 all
    have next := start.add first
    rw [add_zero, start.isValue.nearest_eq] at next
    exact ih next others

/-! ### Shares -/

/-- A share is not above one, and is rounded to nothing if it is at most half the smallest positive
double. A finite amount has no share in an infinite one. -/
theorem exists_share (part : Amount x v) (whole : Amount y w) (le : v ≤ w) (finite : v ≠ ⊤)
    (pos : 0 < w) :
    ∃ q, Amount (x / y) q ∧ q ≤ 1 ∧ (0 < q ↔ ((2 ^ (-1075 : ℤ) : ℝ) : EReal) < v / w) := by
  have nonneg : 0 ≤ v / w := EReal.div_nonneg part.nonneg pos.le
  have most : v / w ≤ 1 := by
    by_cases infinite : w = ⊤
    · rw [infinite, EReal.div_top]
      exact zero_le_one
    · rwa [EReal.div_le_iff_le_mul pos infinite, mul_one]
  exact ⟨_, part.div whole pos (.inl finite), IsValue.one.nearest_le nonneg most,
    nearest_pos_iff nonneg⟩

/-- Weights that are accepted are finite amounts, and none of them is above their sum, which is
positive. -/
theorem weights_of_validate {name : String} {ws : List (Double ln)} {total : Double ln}
    (accepted : validateWeights name ws = .ok total) :
    ∃ t, Amount total t ∧ 0 < t ∧ ∀ w ∈ ws, ∃ v, Amount w v ∧ v ≠ ⊤ ∧ v ≤ t := by
  obtain ⟨fine, large, rfl⟩ := validateWeights_eq_ok_iff.1 accepted
  have amounts : ∀ w ∈ ws, ∃ v, Amount w v ∧ v ≠ ⊤ := fun w hw =>
    exists_amount (fine w hw).1 (fine w hw).2
  obtain ⟨t, total, dominates⟩ := exists_sum fun w hw => (amounts w hw).imp fun v h => h.1
  have positive := mt (le_iff ln total .zero).2 (Bool.eq_false_iff.1 large)
  refine ⟨t, total, not_le.1 positive, ?_⟩
  intro w hw
  obtain ⟨v, amount, finite⟩ := amounts w hw
  exact ⟨v, amount, finite, dominates w hw v amount⟩

/-- Weights that are accepted are not all zero: nothing adds up to nothing. -/
theorem exists_positive {name : String} {ws : List (Double ln)} {total : Double ln}
    (accepted : validateWeights name ws = .ok total) :
    ∃ w ∈ ws, Scalar.lt Scalar.zero w = true := by
  obtain ⟨t, amount, positive, weights⟩ := weights_of_validate accepted
  obtain ⟨-, -, rfl⟩ := validateWeights_eq_ok_iff.1 accepted
  by_contra none
  push Not at none
  have all : ∀ w ∈ ws, Amount w 0 := by
    intro w hw
    obtain ⟨v, term, -, -⟩ := weights w hw
    have zero : v = 0 := le_antisymm (not_lt.1 (mt (lt_iff ln .zero term).2 (none w hw))) term.nonneg
    exact zero ▸ term
  have sum := foldl_eq_zero .zero all
  have zero : t = 0 := amount.exactFloat_eq.symm.trans sum.exactFloat_eq
  exact absurd zero positive.ne'

end Double

end Posterior
