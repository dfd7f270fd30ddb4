import Posterior.Proofs.Double.Weights

/-!
# Weights as exact numbers

A parameter is a double, which stands for a number, or an integer, which is rounded when it is read
as a double. Rounding an integer does not bring it to the other side of zero or of one, and it does
not make it infinite. So weights are told apart in the same way, whether they are read as doubles or
as exact numbers, and the same ones are positive.

## Main definitions

* `Double.Reading` — a double that an exact number is read as

## Main results

* `Double.exists_reading` — parameters that are amounts as doubles are amounts
* `Double.Reading.side` — comparisons with zero, one and infinity
-/

namespace Posterior.Double

open Float.Model (UnpackedFloat)
open Float.Model.UnpackedFloat
open scoped ENNReal

variable {u : UnpackedFloat} {x : Float} {v w : EReal} {a : ℝ≥0∞} {c : ℕ}

/-- The double that an exact number is read as: the nearest one, and if that is not the number itself
then the number is an integer of a machine word. -/
structure Reading (x : Float) (a : ℝ≥0∞) : Prop where
  amount : Amount x (nearest a)
  exact : IsValue a ∨ ∃ n : ℕ, n < 2 ^ 63 ∧ (a : EReal) = (n : ℝ)

/-! ### Integers below zero -/

/-- The opposite of a positive amount is not an amount. -/
theorem Form.not_amount_neg (form : Form u v) (pos : 0 < v) :
    ¬ Amount (.ofModel (.pack u.neg)) w := by
  intro amount
  rw [Amount] at amount
  cases form with
  | top =>
    have unpacked : (Float.Model.pack (.infinity .negative)).unpack = .infinity .negative :=
      unpack_signedInfinity .negative
    change Form (Float.Model.pack (.infinity .negative)).unpack w at amount
    rw [unpacked] at amount
    cases amount
  | zero => exact absurd pos (lt_irrefl _)
  | finite pos' canonical small =>
    change Form (Float.Model.pack (.finite .negative _ _ pos')).unpack w at amount
    rw [unpack_pack canonical, if_pos small] at amount
    cases amount

/-- An integer that is an amount as a double is not below zero. -/
theorem exists_natCast {i : ℤ} (amount : Amount (Float.ofInt i) v) : ∃ n : ℕ, i = n := by
  cases i with
  | ofNat n => exact ⟨n, rfl⟩
  | negSucc n =>
    have positive := zero_lt_one.trans_le (one_le_nearest_natCast n.succ_pos)
    exact absurd amount (Form.not_amount_neg (Amount.ofNat (n + 1)) positive)

/-- What is an amount as a double is one as an exact number. -/
theorem exists_reading {p : Value} (read : p.asNumber? = some x) (amount : Amount x v) :
    ∃ a : ℝ≥0∞, p.asNumber? = some (a : EReal) ∧ Reading x a := by
  cases p with
  | unit | bool | str | list => cases read
  | int i =>
    obtain rfl : Float.ofInt i.toInt = x := Option.some.inj read
    obtain ⟨n, whole⟩ := exists_natCast amount
    have inRange : n < 2 ^ 63 := by
      have := i.toInt_lt
      omega
    have cast := Scalar.coe_natCast n
    refine ⟨n, ?_, ?_, .inr ⟨n, inRange, cast⟩⟩
    · change some (((i.toInt : ℝ) : EReal)) = _
      rw [whole, cast, Int.cast_natCast]
    · rw [whole, cast]
      exact Amount.ofNat n
  | float y =>
    obtain rfl : y = x := Option.some.inj read
    obtain ⟨a, rfl⟩ : ∃ a : ℝ≥0∞, (a : EReal) = v :=
      ⟨v.toENNReal, EReal.coe_toENNReal amount.nonneg⟩
    have value := amount.isValue
    refine ⟨a, ?_, ?_, .inl value⟩
    · change some (Scalar.exactFloat y) = _
      rw [amount.exactFloat_eq]
    · rwa [value.nearest_eq]

/-! ### Comparisons -/

namespace Reading

/-- A number is read exactly unless it is two or more, and finite. -/
theorem kept_or_large (reading : Reading x a) : nearest a = a ∨
    ((2 : ℝ) : EReal) ≤ a ∧ ((2 : ℝ) : EReal) ≤ nearest a ∧ (a : EReal) < ⊤ ∧ nearest a < ⊤ := by
  rcases reading.exact with value | ⟨n, small, whole⟩
  · exact .inl value.nearest_eq
  rw [whole]
  by_cases many : 2 ≤ n
  · refine .inr ⟨?_, two_le_nearest_natCast many, EReal.coe_lt_top _, ?_⟩
    · rw [EReal.coe_le_coe_iff]
      exact_mod_cast many
    · exact (nearest_natCast_le small).trans_lt (EReal.coe_lt_top _)
  · exact .inl (Amount.isValue_natCast (by omega)).nearest_eq

/-- Rounding keeps a number on its side of zero, of one and of infinity. -/
theorem side (reading : Reading x a) (edge : w < (2 : ℝ) ∨ w = ⊤) :
    (nearest a < w ↔ (a : EReal) < w) ∧ (w < nearest a ↔ w < (a : EReal)) := by
  rcases reading.kept_or_large with kept | ⟨large, large', finite, finite'⟩
  · rw [kept]
    exact ⟨Iff.rfl, Iff.rfl⟩
  · rcases edge with small | rfl
    · exact ⟨iff_of_false (small.trans_le large').le.not_gt (small.trans_le large).le.not_gt,
        iff_of_true (small.trans_le large') (small.trans_le large)⟩
    · exact ⟨iff_of_true finite' finite, iff_of_false not_top_lt not_top_lt⟩

theorem pos_iff (reading : Reading x a) : 0 < nearest a ↔ (0 : EReal) < a :=
  (reading.side (.inl (EReal.coe_pos.2 zero_lt_two))).2

theorem ne_top_iff (reading : Reading x a) : nearest a ≠ ⊤ ↔ a ≠ ⊤ := by
  rw [← lt_top_iff_ne_top, ← lt_top_iff_ne_top, (reading.side (.inr rfl)).1,
    ← EReal.coe_ennreal_top, EReal.coe_ennreal_lt_coe_ennreal_iff]

theorem side_one (reading : Reading x a) :
    (nearest a < 1 ↔ (a : EReal) < 1) ∧ (1 < nearest a ↔ 1 < (a : EReal)) :=
  reading.side (.inl (EReal.coe_lt_coe_iff.2 one_lt_two))

/-- The same numbers compare as positive. -/
theorem zero_lt (reading : Reading x a) :
    Scalar.lt Scalar.zero x = Scalar.lt Scalar.zero (a : EReal) := by
  rw [Bool.eq_iff_iff, Scalar.exact_lt_iff, Scalar.exact_zero, ← reading.pos_iff]
  exact lt_iff Float.log .zero reading.amount

/-- The same numbers compare as less than one. -/
theorem lt_one (reading : Reading x a) :
    Scalar.lt x Scalar.one = Scalar.lt (a : EReal) Scalar.one := by
  rw [Bool.eq_iff_iff, Scalar.exact_lt_iff, Scalar.exact_one, ← reading.side_one.1]
  exact lt_iff Float.log reading.amount amount_one

/-- The same numbers are finite. -/
theorem finite_iff (reading : Reading x a) : (∃ v, Amount x v ∧ v ≠ ⊤) ↔ a ≠ ⊤ := by
  rw [← reading.ne_top_iff]
  constructor
  · rintro ⟨v, amount, finite⟩
    rwa [← amount.exactFloat_eq, reading.amount.exactFloat_eq] at finite
  · intro finite
    exact ⟨_, reading.amount, finite⟩

/-- What can be told of a number either way can be told of all numbers in a list. -/
theorem forall_iff {p : Float → Prop} {q : ℝ≥0∞ → Prop} {xs : List Float} {as : List ℝ≥0∞}
    (readings : List.Forall₂ Reading xs as) (same : ∀ x a, Reading x a → (p x ↔ q a)) :
    (∀ x ∈ xs, p x) ↔ ∀ a ∈ as, q a := by
  induction readings with
  | nil => simp
  | cons first _ ih => rw [List.forall_mem_cons, List.forall_mem_cons, same _ _ first, ih]

end Reading

/-- Parameters that are amounts as doubles are amounts, one by one. -/
theorem exists_readings {ps : List Value} {xs : List Float}
    (read : List.Forall₂ (fun p x => p.asNumber? = some x) ps xs)
    (amounts : ∀ x ∈ xs, ∃ v, Amount x v) :
    ∃ as : List ℝ≥0∞, List.Forall₂ (fun p (a : ℝ≥0∞) => p.asNumber? = some (a : EReal)) ps as ∧
      List.Forall₂ Reading xs as := by
  induction read with
  | nil => exact ⟨[], .nil, .nil⟩
  | cons first _ ih =>
    obtain ⟨⟨v, amount⟩, others⟩ := List.forall_mem_cons.1 amounts
    obtain ⟨a, exact, reading⟩ := exists_reading first amount
    obtain ⟨as, exacts, readings⟩ := ih others
    exact ⟨a :: as, .cons exact exacts, .cons reading readings⟩

end Posterior.Double
