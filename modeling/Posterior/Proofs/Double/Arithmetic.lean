import Posterior.Proofs.Double.Encoding
import Posterior.Proofs.Exact

/-!
# Arithmetic of nonnegative doubles

Each operation on doubles gives the double nearest to the exact result. That is shown for the
doubles from zero up, which is where weights and probabilities are. Either zero stands for nothing.

## Main definitions

* `Double.Amount` — a nonnegative double and the number that it stands for

## Main results

* `Double.Amount.lt_iff`, `Double.Amount.beq_iff` — doubles compare as the numbers do
* `Double.Amount.add`, `Double.Amount.sub`, `Double.Amount.mul`, `Double.Amount.div` — the results are
  those nearest to the exact ones
-/

namespace Posterior.Double

open Float.Model (Format UnpackedFloat totalExponent)
open Float.Model.UnpackedFloat

variable {u : UnpackedFloat} {x y : Float} {v w : EReal} {r : ℝ} {m n : ℕ} {e f : ℤ}

/-- An unpacked double from zero up, and the number that it stands for. -/
inductive Form : UnpackedFloat → EReal → Prop
  | top : Form (.infinity .positive) ⊤
  | zero (s : Sign) : Form (.zero s) 0
  | finite {m : ℕ} {e : ℤ} (pos : 0 < m) : Canonical m e → e ≤ 971 →
    Form (.finite .positive m e pos) ((m * 2 ^ e : ℝ) : EReal)

/-- A double from zero up, and the number that it stands for. -/
def Amount (x : Float) (v : EReal) : Prop := Form x.toModel.unpack v

/-! ### Canonical forms and their values -/

theorem Canonical.onGrid (canonical : Canonical m e) : OnGrid (m * 2 ^ e) :=
  .mk canonical.digits canonical.lowest

/-- The exponent of a canonical form tells whether it is too large. -/
theorem Canonical.lt_iff (canonical : Canonical m e) :
    (m * 2 ^ e : ℝ) < 2 ^ (1024 : ℤ) ↔ e ≤ 971 := by
  constructor
  · intro small
    by_contra large
    have full : (2 ^ (52 : ℤ) : ℝ) ≤ m := by
      exact_mod_cast canonical.full (by omega)
    have : (2 : ℝ) ^ (1024 : ℤ) ≤ m * 2 ^ e := calc
      (2 : ℝ) ^ (1024 : ℤ) ≤ 2 ^ (52 + e) := zpow_le_zpow_right₀ one_le_two (by omega)
      _ = 2 ^ (52 : ℤ) * 2 ^ e := two_zpow_add _ _
      _ ≤ m * 2 ^ e := by gcongr
    exact absurd small (not_lt.2 this)
  · intro small
    have digits : (m : ℝ) < 2 ^ (53 : ℤ) := by exact_mod_cast canonical.digits
    calc (m * 2 ^ e : ℝ) < 2 ^ (53 : ℤ) * 2 ^ e := by gcongr
      _ = 2 ^ (53 + e) := (two_zpow_add _ _).symm
      _ ≤ 2 ^ (1024 : ℤ) := zpow_le_zpow_right₀ one_le_two (by omega)

/-- The smaller exponent belongs to the smaller number. -/
theorem Canonical.lt_of_lt (few : Canonical m e) (many : Canonical n f) (less : e < f) :
    (m * 2 ^ e : ℝ) < n * 2 ^ f := by
  have digits : (m : ℝ) < 2 ^ (53 : ℤ) := by exact_mod_cast few.digits
  have full : (2 ^ (52 : ℤ) : ℝ) ≤ n := by exact_mod_cast many.full (few.lowest.trans_lt less)
  calc (m * 2 ^ e : ℝ) < 2 ^ (53 : ℤ) * 2 ^ e := by gcongr
    _ = 2 ^ (53 + e) := (two_zpow_add _ _).symm
    _ ≤ 2 ^ (52 + f) := zpow_le_zpow_right₀ one_le_two (by omega)
    _ = 2 ^ (52 : ℤ) * 2 ^ f := two_zpow_add _ _
    _ ≤ n * 2 ^ f := by gcongr

/-- Canonical forms compare by their exponents first. -/
theorem Canonical.compare_eq (first : Canonical m e) (second : Canonical n f) :
    (compare e f).then (compare m n) =
      compare ((m * 2 ^ e : ℝ) : EReal) ((n * 2 ^ f : ℝ) : EReal) := by
  rcases lt_trichotomy e f with less | rfl | more
  · rw [compare_lt_iff_lt.2 less,
      compare_lt_iff_lt.2 (EReal.coe_lt_coe_iff.2 (first.lt_of_lt second less))]
    rfl
  · have unit : (0 : ℝ) < 2 ^ e := by positivity
    rw [compare_eq_iff_eq.2 rfl]
    rcases lt_trichotomy m n with less | rfl | more
    · have : (m * 2 ^ e : ℝ) < n * 2 ^ e := by gcongr
      rw [compare_lt_iff_lt.2 less, compare_lt_iff_lt.2 (EReal.coe_lt_coe_iff.2 this)]
      rfl
    · rw [compare_eq_iff_eq.2 rfl, compare_eq_iff_eq.2 rfl]
      rfl
    · have : (n * 2 ^ e : ℝ) < m * 2 ^ e := by gcongr
      rw [compare_gt_iff_gt.2 more, compare_gt_iff_gt.2 (EReal.coe_lt_coe_iff.2 this)]
      rfl
  · rw [compare_gt_iff_gt.2 more,
      compare_gt_iff_gt.2 (EReal.coe_lt_coe_iff.2 (second.lt_of_lt first more))]
    rfl

theorem Form.isValue (form : Form u v) : IsValue v := by
  cases form with
  | top => exact .top
  | zero => exact .zero
  | finite _ canonical small => exact .finite canonical.onGrid (canonical.lt_iff.2 small)

theorem Form.finite_pos (pos : 0 < m) : (0 : EReal) < ((m * 2 ^ e : ℝ) : EReal) := by
  have : (0 : ℝ) < m := by exact_mod_cast pos
  exact EReal.coe_pos.2 (by positivity)

theorem Form.compare_eq {u' : UnpackedFloat} (first : Form u v) (second : Form u' w) :
    u.compare u' = some (compare v w) := by
  cases first with
  | top =>
    cases second with
    | top => rw [compare_eq_iff_eq.2 rfl]; rfl
    | zero s => rw [compare_gt_iff_gt.2 EReal.zero_lt_top]; rfl
    | finite pos => rw [compare_gt_iff_gt.2 (EReal.coe_lt_top _)]; rfl
  | zero s =>
    cases second with
    | top => rw [compare_lt_iff_lt.2 EReal.zero_lt_top]; rfl
    | zero s => rw [compare_eq_iff_eq.2 rfl]; rfl
    | finite pos => rw [compare_lt_iff_lt.2 (Form.finite_pos pos)]; rfl
  | finite pos canonical =>
    cases second with
    | top => rw [compare_lt_iff_lt.2 (EReal.coe_lt_top _)]; rfl
    | zero s => rw [compare_gt_iff_gt.2 (Form.finite_pos pos)]; rfl
    | finite pos' canonical' => rw [← canonical.compare_eq canonical']; rfl

/-- Packing keeps the number. -/
theorem Form.pack (form : Form u v) : Amount (.ofModel (.pack u)) v := by
  have kept : (Float.Model.pack u).unpack = u := by
    cases form with
    | top => exact unpack_signedInfinity _
    | zero => exact unpack_signedZero _
    | finite pos canonical small => rw [unpack_pack canonical, if_pos small]
  rw [Amount, kept]
  exact form

/-- Packing keeps a size, unless it is too large: then it makes it infinite. -/
theorem Magnitude.unpack_pack {s : Sign} {c : ℝ} (size : Magnitude u s c) :
    (Float.Model.pack u).unpack = if c < 2 ^ (1024 : ℤ) then u else .infinity s := by
  cases size with
  | zero =>
    rw [if_pos (by positivity)]
    exact unpack_signedZero s
  | finite pos canonical =>
    exact (Double.unpack_pack canonical).trans (if_congr canonical.lt_iff.symm rfl rfl)

/-- A rounded result is the nearest double. -/
theorem Magnitude.pack (rounding : Magnitude u .positive (rounded r)) :
    Amount (.ofModel (.pack u)) (nearest r) := by
  change Form (Float.Model.pack u).unpack _
  rw [nearest_coe, rounding.unpack_pack]
  rcases le_or_gt (2 ^ (1024 : ℤ)) (rounded r) with large | small
  · rw [if_pos large, if_neg (not_lt.2 large)]
    exact .top
  · rw [if_neg (not_le.2 small), if_pos small]
    generalize rounded r = c at rounding small
    cases rounding with
    | zero => exact .zero _
    | finite pos canonical => exact .finite pos canonical (canonical.lt_iff.1 small)

/-! ### Results -/

namespace Form

variable {a b : UnpackedFloat}

theorem add (first : Form a v) (second : Form b w) :
    Amount (.ofModel (.pack (UnpackedFloat.add .binary64 a b))) (nearest (v + w)) := by
  have left := first.isValue.nearest_eq
  have right := second.isValue.nearest_eq
  cases first with
  | top =>
    have infinite : nearest (⊤ + w) = ⊤ := by
      rw [EReal.top_add_of_ne_bot (second.isValue.nonneg.trans_lt' EReal.bot_lt_zero).ne', nearest_top]
    rw [infinite]
    cases second <;> exact Form.top.pack
  | zero s =>
    rw [zero_add, right]
    cases second with
    | top => exact Form.top.pack
    | zero s' => cases s <;> cases s' <;> exact (Form.zero _).pack
    | finite pos canonical small => exact (Form.finite pos canonical small).pack
  | finite pos canonical small =>
    cases second with
    | top =>
      rw [EReal.coe_add_top, nearest_top]
      exact Form.top.pack
    | zero s =>
      rw [add_zero, left]
      exact (Form.finite pos canonical small).pack
    | @finite n f pos' canonical' small' =>
      rename_i m e
      -- Both mantissas are brought to the lower exponent, where they are added as integers.
      have sum := magnitude_normalize (e := min e f) (n := ((decreaseExponent m e (min e f)).1 +
        (decreaseExponent n f (min e f)).1 : ℤ)) (by positivity)
      push_cast at sum
      rw [add_mul, decreaseExponent_value (min_le_left e f),
        decreaseExponent_value (min_le_right e f)] at sum
      rw [← EReal.coe_add]
      exact sum.pack

/-- The larger of two numbers less the smaller, unless both are infinite. -/
theorem sub (first : Form a v) (second : Form b w) (le : w ≤ v) (finite : v ≠ ⊤) :
    Amount (.ofModel (.pack (UnpackedFloat.sub .binary64 a b))) (nearest (v - w)) := by
  have left := first.isValue.nearest_eq
  cases first with
  | top => exact absurd rfl finite
  | zero s =>
    cases second with
    | top => exact absurd le (not_le.2 EReal.zero_lt_top)
    | zero s' =>
      rw [sub_zero, left]
      cases s <;> cases s' <;> exact (Form.zero _).pack
    | finite pos => exact absurd le (not_le.2 (finite_pos pos))
  | finite pos canonical small =>
    cases second with
    | top => exact absurd le (not_le.2 (EReal.coe_lt_top _))
    | zero s =>
      rw [sub_zero, left]
      exact (Form.finite pos canonical small).pack
    | @finite n f pos' canonical' small' =>
      rename_i m e
      have left := decreaseExponent_value (m := m) (min_le_left e f)
      have right := decreaseExponent_value (m := n) (min_le_right e f)
      -- The difference of the integers is not negative, so the result has the positive sign.
      have less : (decreaseExponent n f (min e f)).1 ≤ (decreaseExponent m e (min e f)).1 := by
        have unit : (0 : ℝ) < 2 ^ min e f := by positivity
        rw [EReal.coe_le_coe_iff, ← left, ← right, mul_le_mul_iff_left₀ unit] at le
        exact_mod_cast le
      have difference := magnitude_normalize (e := min e f)
        (n := ((decreaseExponent m e (min e f)).1 - (decreaseExponent n f (min e f)).1 : ℤ)) (by omega)
      push_cast at difference
      rw [sub_mul, left, right] at difference
      rw [← EReal.coe_sub]
      exact difference.pack

theorem mul (first : Form a v) (second : Form b w) (finite : v ≠ ⊤) (finite' : w ≠ ⊤) :
    Amount (.ofModel (.pack (UnpackedFloat.mul .binary64 a b))) (nearest (v * w)) := by
  have none : nearest 0 = 0 := IsValue.zero.nearest_eq
  cases first with
  | top => exact absurd rfl finite
  | zero s =>
    rw [zero_mul, none]
    cases second with
    | top => exact absurd rfl finite'
    | zero | finite => exact (Form.zero _).pack
  | finite pos canonical small =>
    cases second with
    | top => exact absurd rfl finite'
    | zero s =>
      rw [mul_zero, none]
      exact (Form.zero _).pack
    | @finite n f pos' canonical' small' =>
      rename_i m e
      have product := magnitude_roundWithAccuracy (s := .positive) (describes_exact (m * n))
        (product_fine canonical canonical' pos pos')
      have value : ((m * n : ℕ) * 2 ^ (e + f) : ℝ) = m * 2 ^ e * (n * 2 ^ f) := by
        rw [two_zpow_add]
        push_cast
        ring
      rw [value] at product
      rw [← EReal.coe_mul]
      exact product.pack

theorem div (first : Form a v) (second : Form b w) (pos : 0 < w) (finite : v ≠ ⊤ ∨ w ≠ ⊤) :
    Amount (.ofModel (.pack (UnpackedFloat.div .binary64 a b))) (nearest (v / w)) := by
  have none : nearest 0 = 0 := IsValue.zero.nearest_eq
  cases first with
  | top =>
    cases second with
    | top => exact absurd finite (by simp)
    | zero => exact absurd pos (lt_irrefl _)
    | finite pos' =>
      rw [EReal.top_div_of_pos_ne_top pos (EReal.coe_ne_top _), nearest_top]
      exact Form.top.pack
  | zero s =>
    rw [EReal.zero_div, none]
    cases second with
    | top | finite => exact (Form.zero _).pack
    | zero => exact absurd pos (lt_irrefl _)
  | finite pos₁ canonical small =>
    cases second with
    | top =>
      rw [EReal.div_top, none]
      exact (Form.zero _).pack
    | zero => exact absurd pos (lt_irrefl _)
    | finite pos₂ =>
      rw [← EReal.coe_div]
      exact (magnitude_quotient pos₁ pos₂).pack

end Form

/-! ### Doubles and the numbers that they stand for -/

theorem lt_iff_compare : x < y ↔ x.toModel.unpack.compare y.toModel.unpack = some .lt := by
  change decide (x.toModel < y.toModel) = true ↔ _
  rw [decide_eq_true_iff]
  exact beq_iff_eq

theorem beq_iff_compare :
    (x == y) = true ↔ x.toModel.unpack.compare y.toModel.unpack = some .eq := by
  change (x.toModel.unpack.compare y.toModel.unpack == some .eq) = true ↔ _
  exact beq_iff_eq

/-- What compares with something is a number. -/
theorem number_of_compare {u u' : UnpackedFloat} {o : Ordering} (compared : u.compare u' = some o) :
    u' ≠ .notANumber := by
  rintro rfl
  cases u <;> cases compared

namespace Amount

theorem isValue (amount : Amount x v) : IsValue v := Form.isValue amount

theorem nonneg (amount : Amount x v) : 0 ≤ v := amount.isValue.nonneg

/-- A double stands for the number that its bits say. -/
theorem exactFloat_eq (amount : Amount x v) : Scalar.exactFloat x = v := by
  rw [Scalar.exactFloat, read_eq]
  rw [Amount] at amount
  generalize x.toModel.unpack = u at amount
  have positive : (Sign.positive == Sign.negative) = false := rfl
  cases amount with
  | top => rfl
  | zero s =>
    rw [reading_zero]
    simp
  | finite pos =>
    rw [reading_finite]
    simp [positive]

theorem lt_iff (first : Amount x v) (second : Amount y w) : x < y ↔ v < w := by
  rw [lt_iff_compare, Form.compare_eq first second, Option.some.injEq, compare_lt_iff_lt]

theorem beq_iff (first : Amount x v) (second : Amount y w) : (x == y) = true ↔ v = w := by
  rw [beq_iff_compare, Form.compare_eq first second, Option.some.injEq, compare_eq_iff_eq]

theorem unpack_zero : (0 : Float).toModel.unpack = .zero .positive := rfl

theorem zero : Amount 0 0 := by
  rw [Amount, unpack_zero]
  exact .zero _

/-- A number that is not below zero is an amount. -/
theorem exists_of_not_lt (number : x.toModel.unpack ≠ .notANumber) (nonneg : ¬ x < 0) :
    ∃ v, Amount x v := by
  rw [lt_iff_compare, unpack_zero] at nonneg
  cases unpacked : x.toModel.unpack with
  | notANumber => exact absurd unpacked number
  | infinity s =>
    cases s with
    | negative =>
      rw [unpacked] at nonneg
      exact absurd rfl nonneg
    | positive => exact ⟨⊤, by rw [Amount, unpacked]; exact .top⟩
  | zero s => exact ⟨0, by rw [Amount, unpacked]; exact .zero s⟩
  | finite s m e pos =>
    cases s with
    | negative =>
      rw [unpacked] at nonneg
      exact absurd rfl nonneg
    | positive =>
      obtain ⟨canonical, small⟩ := canonical_of_unpack unpacked
      exact ⟨_, by rw [Amount, unpacked]; exact .finite pos canonical small⟩

/-! ### Operations -/

theorem add (first : Amount x v) (second : Amount y w) : Amount (x + y) (nearest (v + w)) :=
  Form.add first second

theorem sub (first : Amount x v) (second : Amount y w) (le : w ≤ v) (finite : v ≠ ⊤) :
    Amount (x - y) (nearest (v - w)) :=
  Form.sub first second le finite

theorem mul (first : Amount x v) (second : Amount y w) (finite : v ≠ ⊤) (finite' : w ≠ ⊤) :
    Amount (x * y) (nearest (v * w)) :=
  Form.mul first second finite finite'

theorem div (first : Amount x v) (second : Amount y w) (pos : 0 < w) (finite : v ≠ ⊤ ∨ w ≠ ⊤) :
    Amount (x / y) (nearest (v / w)) :=
  Form.div first second pos finite

/-! ### Integers -/

/-- An integer of up to 53 digits is a double. -/
theorem isValue_natCast (small : n < 2 ^ 53) : IsValue (n : ℝ) := by
  have point : OnGrid (n * 2 ^ (0 : ℤ)) := .mk small (by norm_num)
  rw [zpow_zero, mul_one] at point
  refine .finite point ?_
  calc (n : ℝ) < 2 ^ (53 : ℤ) := by exact_mod_cast small
    _ ≤ 2 ^ (1024 : ℤ) := zpow_le_zpow_right₀ one_le_two (by norm_num)

theorem toFloat (k : UInt64) : Amount k.toFloat (nearest (k.toNat : ℝ)) := by
  have converted := magnitude_normalize (e := 0) (Int.natCast_nonneg k.toNat)
  rw [zpow_zero, mul_one, Int.cast_natCast] at converted
  exact converted.pack

theorem unpack_one : (Float.ofBits 0x3FF0000000000000).toModel.unpack =
    .finite .positive (2 ^ 52) (-52) (by decide) := rfl

theorem canonical_one : Canonical (2 ^ 52) (-52) :=
  ⟨by norm_num, by norm_num, fun _ => le_rfl⟩

theorem ofBits_one : Amount (Float.ofBits 0x3FF0000000000000) 1 := by
  have one : ((2 ^ 52 : ℕ) * 2 ^ (-52 : ℤ) : ℝ) = 1 := by norm_num
  have form := Form.finite (by decide) canonical_one (by norm_num)
  rw [one] at form
  rw [Amount, unpack_one]
  exact form

/-- A count of more digits than fit is rounded like a result. -/
theorem ofScientific (many : 2 ^ 53 ≤ n) :
    Amount (.ofModel (.pack (UnpackedFloat.ofScientific .binary64 n 0))) (nearest (n : ℝ)) := by
  have shifted : n <<< 53 * 1 = n * 2 ^ 53 := by rw [mul_one, Nat.shiftLeft_eq]
  -- There are more digits than are needed, for an exponent that is not too low.
  have fine : (-53 : ℤ) ≤ target (n <<< 53 * 1) (-53) := by
    have digits : 53 ≤ (n <<< 53 * 1).log2 := by
      rw [shifted, Nat.le_log2 (by positivity)]
      exact Nat.le_mul_of_pos_left _ (by positivity)
    rw [target_eq]
    omega
  have scaled := magnitude_roundWithAccuracy (s := .positive) (describes_exact (n <<< 53 * 1)) fine
  have value : ((n <<< 53 * 1 : ℕ) * 2 ^ (-53 : ℤ) : ℝ) = n := by
    have unit : (9007199254740992 * 2 ^ (-53 : ℤ) : ℝ) = 1 := by norm_num
    rw [shifted]
    push_cast
    rw [mul_assoc, unit, mul_one]
  rw [value] at scaled
  -- No count is too large or too small for its exponent.
  have inRange : ¬ (0 : ℤ) < -((2 ^ 11 : ℤ) + n.log2) := by norm_num
  rw [UnpackedFloat.ofScientific, dif_neg (by omega), if_neg (by norm_num), if_neg inRange,
    if_pos le_rfl]
  exact scaled.pack

/-- A count is rounded like a result. -/
theorem ofNat (n : ℕ) : Amount (Float.ofNat n) (nearest (n : ℝ)) := by
  change Amount (if h : n < 2 ^ 53 ∧ 0 ≤ 22 then
    n.toUInt64.toFloat * Float.ofBits 0x3FF0000000000000
    else .ofModel (.pack (UnpackedFloat.ofScientific .binary64 n 0))) _
  split
  · next few =>
    have value := isValue_natCast few.1
    have converted := toFloat n.toUInt64
    rw [Nat.toUInt64_eq, UInt64.toNat_ofNat_of_lt' (few.1.trans (by decide)), value.nearest_eq]
      at converted
    have product := converted.mul ofBits_one (EReal.coe_ne_top _) (EReal.coe_ne_top 1)
    rw [mul_one] at product
    exact product
  · next many => exact ofScientific (by omega)

end Amount

end Posterior.Double
