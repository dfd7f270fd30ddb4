import Mathlib.Analysis.SpecialFunctions.Log.ENNRealLogExp
import Posterior.Scalar

/-!
# Exact arithmetic of log-masses

Read over the extended reals, a log-mass stands for the mass that is its exponential, and the
operations of inference become those on masses: the sum of two log-masses is the product of the
masses, and `Scalar.logAddExp` is their sum. There is no rounding, and minus infinity is the log-mass
of nothing.

## Main definitions

* `Scalar.exactFloat` — the number that a double stands for
* the instance of `Scalar` for `EReal`

## Main results

* `Scalar.exp_logAddExp`, `Scalar.exp_foldl_logAddExp` — sums of masses
* `Scalar.exp_sub` — quotients of masses
-/

namespace Posterior.Scalar

open scoped ENNReal

/-- The number that a double stands for. What is not a number is read as infinite, which is refused
wherever the other is. -/
noncomputable def exactFloat (x : Float) : EReal :=
  match Decimal.read x with
  | .nan => ⊤
  | .infinite negative => if negative then ⊥ else ⊤
  | .finite b => (((if b.negative then -1 else 1) * b.mantissa * 2 ^ b.exponent : ℝ) : EReal)

open Classical in
/-- Extended reals, without rounding. Logarithms are those of masses. -/
noncomputable instance : Scalar EReal where
  ofNat n := n
  ofInt i := ((i : ℝ) : EReal)
  ofFloat := exactFloat
  negInf := ⊥
  posInf := ⊤
  eq x y := decide (x = y)
  lt x y := decide (x < y)
  exp x := (x.exp : EReal)
  ln x := x.toENNReal.log
  ln1p x := (1 + x).toENNReal.log
  text _ := "exact"
  fixedText _ _ := "exact"

variable {a b x y : EReal}

@[simp] theorem exact_negInf : (negInf : EReal) = ⊥ := rfl

@[simp] theorem exact_posInf : (posInf : EReal) = ⊤ := rfl

@[simp] theorem exact_zero : (zero : EReal) = 0 := Nat.cast_zero

@[simp] theorem exact_one : (one : EReal) = 1 := Nat.cast_one

@[simp] theorem exact_eq_iff : eq x y = true ↔ x = y := decide_eq_true_iff

@[simp] theorem exact_lt_iff : lt x y = true ↔ x < y := decide_eq_true_iff

@[simp] theorem exact_le_iff : le x y = true ↔ x ≤ y := by simp [le, le_iff_lt_or_eq]

@[simp] theorem exact_isNaN : isNaN x = false := by simp [isNaN, Bool.eq_false_iff]

@[simp] theorem exact_isFinite_iff : isFinite x = true ↔ x ≠ ⊥ ∧ x ≠ ⊤ := by
  simp [isFinite, bot_lt_iff_ne_bot, lt_top_iff_ne_top]

@[simp] theorem exact_max : max x y = x ⊔ y := by
  unfold max
  split
  · next less => exact (sup_of_le_right (exact_lt_iff.1 less).le).symm
  · next other => exact (sup_of_le_left (not_lt.1 (mt exact_lt_iff.2 other))).symm

/-- A count is the same among the masses and the reals. -/
theorem coe_natCast (n : ℕ) : ((n : ℝ≥0∞) : EReal) = ((n : ℝ) : EReal) := by
  rw [← ENNReal.ofReal_natCast, EReal.coe_ennreal_ofReal, max_eq_left n.cast_nonneg]

theorem sum_coe (ws : List ℝ≥0∞) :
    (sum (ws.map fun w : ℝ≥0∞ => (w : EReal)) : EReal) = (ws.sum : ℝ≥0∞) := by
  rw [sum, exact_zero, ← List.sum_eq_foldl]
  induction ws with
  | nil => rfl
  | cons w ws ih => rw [List.map_cons, List.sum_cons, List.sum_cons, ih, EReal.coe_ennreal_add]

theorem exact_exp (x : EReal) : (exp x : EReal) = (x.exp : EReal) := rfl

theorem exact_ln (x : EReal) : (ln x : EReal) = x.toENNReal.log := rfl

theorem exact_exp_coe (x : ℝ) : (exp (x : EReal) : EReal) = (Real.exp x : ℝ) := by
  rw [exact_exp, EReal.exp_coe, EReal.coe_ennreal_ofReal, max_eq_left (Real.exp_pos x).le]

theorem exact_ln1p_exp (x : EReal) : ln1p (exp x) = ENNReal.log (1 + x.exp) := by
  change ENNReal.log (1 + (x.exp : EReal)).toENNReal = _
  rw [← EReal.coe_ennreal_one, ← EReal.coe_ennreal_add, EReal.toENNReal_coe]

theorem exact_abs_coe (x : ℝ) : abs (x : EReal) = ((|x| : ℝ) : EReal) := by
  have negative : lt (x : EReal) zero = true ↔ x < 0 := by simp
  unfold abs
  split
  · next h => rw [abs_of_neg (negative.1 h), EReal.coe_neg]
  · next h => rw [abs_of_nonneg (not_lt.1 (mt negative.2 h))]

theorem exp_mul_one_add (a b : ℝ) :
    (a : EReal).exp * (1 + EReal.exp (-((a - b : ℝ) : EReal))) =
      (a : EReal).exp + (b : EReal).exp := by
  rw [mul_add, mul_one, ← EReal.exp_add, ← EReal.coe_neg, ← EReal.coe_add]
  congr 4
  ring

/-- Taken relative to the larger of two masses, the smaller is their quotient. -/
theorem exp_sup_mul (ha : a ≠ ⊥) (hb : b ≠ ⊥) :
    (a ⊔ b).exp * (1 + EReal.exp (-abs (a - b))) = a.exp + b.exp := by
  -- An infinite mass absorbs the other, so there is something to compute for two reals only.
  induction a with
  | bot => contradiction
  | top => simp [ENNReal.top_mul]
  | coe a =>
    induction b with
    | bot => contradiction
    | top => simp [ENNReal.top_mul]
    | coe b =>
      rw [← EReal.coe_sub, exact_abs_coe]
      rcases le_total a b with h | h
      · rw [sup_of_le_right (EReal.coe_le_coe_iff.2 h), abs_sub_comm,
          abs_of_nonneg (sub_nonneg.2 h), exp_mul_one_add, add_comm]
      · rw [sup_of_le_left (EReal.coe_le_coe_iff.2 h), abs_of_nonneg (sub_nonneg.2 h),
          exp_mul_one_add]

/-- `logAddExp` adds masses. -/
theorem exp_logAddExp (a b : EReal) : (logAddExp a b).exp = a.exp + b.exp := by
  unfold logAddExp
  by_cases ha : a = ⊥
  · simp [ha]
  by_cases hb : b = ⊥
  · simp [ha, hb]
  rw [if_neg (by simpa using ha), if_neg (by simpa using hb), exact_max, exact_ln1p_exp]
  rw [EReal.exp_add, ENNReal.exp_log, exp_sup_mul ha hb]

/-- A sum is infinite if one of the masses is. -/
theorem logAddExp_eq_top_iff : logAddExp a b = ⊤ ↔ a = ⊤ ∨ b = ⊤ := by
  rw [← EReal.exp_eq_top_iff, exp_logAddExp, ENNReal.add_eq_top, EReal.exp_eq_top_iff,
    EReal.exp_eq_top_iff]

theorem logAddExp_ne_top (ha : a ≠ ⊤) (hb : b ≠ ⊤) : logAddExp a b ≠ ⊤ :=
  mt logAddExp_eq_top_iff.1 (not_or_intro ha hb)

/-- Log-masses that are added one after the other add up the masses. -/
theorem exp_foldl_logAddExp (ls : List EReal) (a : EReal) :
    (ls.foldl logAddExp a).exp = a.exp + (ls.map EReal.exp).sum := by
  induction ls generalizing a with
  | nil => simp
  | cons l ls ih => rw [List.foldl_cons, ih, exp_logAddExp, List.map_cons, List.sum_cons, add_assoc]

/-- A sum of finite masses is finite. -/
theorem foldl_logAddExp_ne_top {ls : List EReal} (ha : a ≠ ⊤) (all : ∀ l ∈ ls, l ≠ ⊤) :
    ls.foldl logAddExp a ≠ ⊤ := by
  induction ls generalizing a with
  | nil => exact ha
  | cons l ls ih =>
    obtain ⟨first, others⟩ := List.forall_mem_cons.1 all
    exact ih (logAddExp_ne_top ha first) others

/-- The difference of two log-masses is the quotient of the masses. -/
theorem exp_sub (a b : EReal) : (a - b).exp = a.exp / b.exp := by
  rw [sub_eq_add_neg, EReal.exp_add, EReal.exp_neg, div_eq_mul_inv]

end Posterior.Scalar
