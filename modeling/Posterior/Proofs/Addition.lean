import Mathlib.Algebra.Order.BigOperators.Group.List
import Posterior.Marginal
import Posterior.Proofs.Exact

/-!
# Addition of log-masses

The sum of two log-masses is computed relative to the larger of the two, from the distance between
them, and a log-mass of nothing is set apart on either side. None of this shows in what is computed:
over exact log-masses it is the logarithm of the sum of the masses. So the laws of addition hold, and
log-masses that are added up one by one may come in any order.

## Main results

* `Scalar.logAddExp_eq_ln` — the sum of two log-masses
* `Scalar.logAddExp_comm`, `Scalar.logAddExp_assoc`, `Scalar.logAddExp_le_logAddExp` — laws of
  addition
* `Scalar.foldl_logAddExp_eq_ln` — the sum of a list of log-masses
* `Scalar.logAddExp_adds_masses` — all of it together
-/

namespace Posterior

open scoped ENNReal

namespace Scalar

variable {a b c d : EReal} {ls ks : List EReal}

/-- The sum of two log-masses is the logarithm of the sum of the masses. -/
theorem logAddExp_eq_ln (a b : EReal) : logAddExp a b = ln (exp a + exp b) := by
  rw [exact_ln, exact_exp, exact_exp, ← EReal.coe_ennreal_add, EReal.toENNReal_coe, ← exp_logAddExp,
    EReal.log_exp]

/-- Log-masses of something are added as real numbers. -/
theorem logAddExp_coe (x y : ℝ) :
    logAddExp (x : EReal) y = (Real.log (Real.exp x + Real.exp y) : ℝ) := by
  have positive : 0 < Real.exp x + Real.exp y := add_pos (Real.exp_pos x) (Real.exp_pos y)
  rw [logAddExp_eq_ln, exact_exp_coe, exact_exp_coe, ← EReal.coe_add, exact_ln,
    EReal.toENNReal_of_ne_top (EReal.coe_ne_top _), EReal.toReal_coe, ENNReal.log_ofReal,
    if_neg (not_le.2 positive)]

/-! ### Laws of addition -/

theorem logAddExp_comm (a b : EReal) : logAddExp a b = logAddExp b a := by
  rw [logAddExp_eq_ln, logAddExp_eq_ln, add_comm]

theorem logAddExp_assoc (a b c : EReal) :
    logAddExp (logAddExp a b) c = logAddExp a (logAddExp b c) := by
  -- The form that is computed says nothing about this, but masses tell log-masses apart.
  apply EReal.exp_strictMono.injective
  simp only [exp_logAddExp, add_assoc]

/-- More mass on either side makes the sum larger. -/
theorem logAddExp_le_logAddExp (left : a ≤ b) (right : c ≤ d) :
    logAddExp a c ≤ logAddExp b d := by
  rw [← EReal.exp_le_exp_iff, exp_logAddExp, exp_logAddExp]
  exact add_le_add (EReal.exp_monotone left) (EReal.exp_monotone right)

theorem le_logAddExp_left (a b : EReal) : a ≤ logAddExp a b := by
  rw [← EReal.exp_le_exp_iff, exp_logAddExp]
  exact le_self_add

theorem max_le_logAddExp (a b : EReal) : max a b ≤ logAddExp a b := by
  rw [exact_max, sup_le_iff]
  refine ⟨le_logAddExp_left a b, ?_⟩
  rw [logAddExp_comm]
  exact le_logAddExp_left b a

/-! ### Lists of log-masses -/

/-- Log-masses that are added up from nothing give the logarithm of the sum of the masses. -/
theorem foldl_logAddExp_eq_ln (ls : List EReal) :
    ls.foldl logAddExp negInf = ln (sum (ls.map exp)) := by
  -- The exponentials are masses, so they are added up as masses.
  have masses : ls.map exp = (ls.map EReal.exp).map fun w : ℝ≥0∞ => (w : EReal) := by
    rw [List.map_map]
    rfl
  apply EReal.exp_strictMono.injective
  rw [exp_foldl_logAddExp, masses, sum_coe, exact_ln, EReal.toENNReal_coe, ENNReal.exp_log]
  simp

theorem foldl_logAddExp_perm (order : ls.Perm ks) :
    ls.foldl logAddExp negInf = ks.foldl logAddExp negInf := by
  apply EReal.exp_strictMono.injective
  rw [exp_foldl_logAddExp, exp_foldl_logAddExp, (order.map _).sum_eq]

theorem foldl_logAddExp_eq_bot_iff : ls.foldl logAddExp negInf = ⊥ ↔ ∀ l ∈ ls, l = ⊥ := by
  rw [← EReal.exp_eq_zero_iff, exp_foldl_logAddExp]
  simp [List.sum_eq_zero_iff]

end Scalar

/-- The total of a marginal is the logarithm of the sum of its masses. -/
theorem Marginal.logTotal_eq_ln (m : Marginal EReal) :
    m.logTotal = Scalar.ln (Scalar.sum (m.masses.map Prod.snd)) := by
  rw [logTotal, ← List.foldl_map, Scalar.foldl_logAddExp_eq_ln, masses, List.map_map, List.map_map]
  rfl

namespace Scalar

/-- Addition of log-masses is addition of masses. Two log-masses give the logarithm of the sum of
their exponentials. So addition commutes and associates, nothing is neutral, more on either side
gives no less, the sum is at least the larger part, and it is infinite only if a part is. Log-masses
that are added up one by one, as for the total of a marginal, give the logarithm of the sum of all,
in any order, and that is the log-mass of nothing exactly if each of them is. -/
theorem logAddExp_adds_masses :
    (∀ a b : EReal, logAddExp a b = ln (exp a + exp b)) ∧
    (∀ x y : ℝ, logAddExp (x : EReal) y = (Real.log (Real.exp x + Real.exp y) : ℝ)) ∧
    (∀ a b : EReal, logAddExp a b = logAddExp b a) ∧
    (∀ a b c : EReal, logAddExp (logAddExp a b) c = logAddExp a (logAddExp b c)) ∧
    (∀ a : EReal, logAddExp negInf a = a ∧ logAddExp a negInf = a) ∧
    (∀ a b c d : EReal, a ≤ b → c ≤ d → logAddExp a c ≤ logAddExp b d) ∧
    (∀ a b : EReal, max a b ≤ logAddExp a b) ∧
    (∀ a b : EReal, logAddExp a b = posInf ↔ a = posInf ∨ b = posInf) ∧
    (∀ ls : List EReal, ls.foldl logAddExp negInf = ln (sum (ls.map exp))) ∧
    (∀ ls ks : List EReal, ls.Perm ks →
      ls.foldl logAddExp negInf = ks.foldl logAddExp negInf) ∧
    (∀ ls : List EReal, ls.foldl logAddExp negInf = negInf ↔ ∀ l ∈ ls, l = negInf) ∧
    (∀ m : Marginal EReal, m.logTotal = ln (sum (m.masses.map Prod.snd))) := by
  have neutral : ∀ a : EReal, logAddExp negInf a = a := logAddExp_negInf (exact_eq_iff.2 rfl)
  refine ⟨logAddExp_eq_ln, logAddExp_coe, logAddExp_comm, logAddExp_assoc, fun a => ?_,
    fun _ _ _ _ => logAddExp_le_logAddExp, max_le_logAddExp, fun _ _ => logAddExp_eq_top_iff,
    foldl_logAddExp_eq_ln, fun _ _ => foldl_logAddExp_perm, fun _ => foldl_logAddExp_eq_bot_iff,
    Marginal.logTotal_eq_ln⟩
  exact ⟨neutral a, by rw [logAddExp_comm, neutral]⟩

/-- Nothing and twice all of the mass, in two orders: both give the logarithm of two. With all of the
mass in the place of nothing the sum grows. -/
theorem logAddExp_adds_masses_doubled :
    ([0, ⊥, 0] : List EReal).Perm [⊥, 0, 0] ∧
    ([0, ⊥, 0] : List EReal).foldl logAddExp negInf =
      ([⊥, 0, 0] : List EReal).foldl logAddExp negInf ∧
    ([⊥, 0, 0] : List EReal).foldl logAddExp negInf = (Real.log 2 : ℝ) ∧
    (⊥ : EReal) ≤ 0 ∧ logAddExp ⊥ 0 ≤ logAddExp (0 : EReal) 0 := by
  obtain ⟨-, reals, -, -, neutral, mono, -, -, -, perm, -⟩ := logAddExp_adds_masses
  have order : ([0, ⊥, 0] : List EReal).Perm [⊥, 0, 0] := .swap ..
  have doubled : logAddExp (0 : EReal) 0 = (Real.log 2 : ℝ) := by
    have zeros := reals 0 0
    rwa [EReal.coe_zero, Real.exp_zero, one_add_one_eq_two] at zeros
  refine ⟨order, perm _ _ order, ?_, bot_le, mono _ _ _ _ bot_le le_rfl⟩
  rw [List.foldl_cons, List.foldl_cons, List.foldl_cons, List.foldl_nil, ← exact_negInf,
    (neutral _).1, (neutral _).1, doubled]

end Scalar

end Posterior
