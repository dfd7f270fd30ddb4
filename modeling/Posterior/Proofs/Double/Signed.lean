import Posterior.Proofs.Double.Arithmetic

/-!
# Finite doubles of either sign

A finite double stands for a number. The sum and the difference of two of them have the size that
the exact result is rounded to. So they are numbers, and they are finite unless the exact result is
half a step or more above the largest double.

## Main definitions

* `Double.Denotes` — a finite double and the number that it stands for
* `Double.Sized` — a double of the size that a number is rounded to

## Main results

* `Double.isFinite_iff` — the doubles that are told to be finite
* `Double.Denotes.add`, `Double.Denotes.sub` — the sizes of sums and differences
* `Double.Sized.isFinite` — results that are not too large
-/

namespace Posterior.Double

open Float.Model (UnpackedFloat)
open Float.Model.UnpackedFloat

variable {u u' : UnpackedFloat} {x y : Float} {r t c : ℝ} {v : EReal} {s : Sign} {m : ℕ} {e : ℤ}

/-- A finite unpacked double, and the number that it stands for. -/
inductive SignedForm : UnpackedFloat → ℝ → Prop
  | zero (s : Sign) : SignedForm (.zero s) 0
  | finite (s : Sign) {m : ℕ} {e : ℤ} (pos : 0 < m) : Canonical m e → e ≤ 971 →
    SignedForm (.finite s m e pos) ((s.apply m : ℤ) * 2 ^ e)

/-- A finite double, and the number that it stands for. -/
def Denotes (x : Float) (r : ℝ) : Prop := SignedForm x.toModel.unpack r

/-- A double of the size that a number is rounded to. -/
inductive Sized (x : Float) (c : ℝ) : Prop
  | mk {u : UnpackedFloat} {s : Sign} :
    Magnitude u s (rounded c) → x = .ofModel (.pack u) → Sized x c

/-! ### Sizes -/

theorem abs_apply (s : Sign) (m : ℕ) : |((s.apply m : ℤ) : ℝ)| = m := by
  cases s <;> simp [Sign.apply]

theorem apply_neg (s : Sign) (k : ℤ) : (-s).apply k = -s.apply k := by
  cases s
  · exact (neg_neg k).symm
  · rfl

/-- Shifted to an exponent that is not larger, a signed mantissa stands for the same number. -/
theorem apply_decreaseExponent (s : Sign) {t : ℤ} (le : t ≤ e) :
    ((s.apply (decreaseExponent m e t).1 : ℤ) * 2 ^ t : ℝ) = (s.apply m : ℤ) * 2 ^ e := by
  have shifted := decreaseExponent_value (m := m) le
  cases s <;> simp [Sign.apply, shifted]

namespace SignedForm

/-- What a finite double stands for is not rounded. -/
theorem magnitude (form : SignedForm u r) : ∃ s, Magnitude u s (rounded |r|) := by
  cases form with
  | zero s =>
    rw [abs_zero, OnGrid.zero.rounded_eq]
    exact ⟨s, .zero s⟩
  | finite s pos canonical =>
    rw [abs_mul, abs_apply, abs_of_pos (by positivity), canonical.onGrid.rounded_eq]
    exact ⟨s, .finite pos canonical⟩

/-- The largest size is a step below the power of two where infinity begins. -/
theorem abs_le (form : SignedForm u r) : |r| ≤ 2 ^ (1024 : ℤ) - 2 ^ (971 : ℤ) := by
  have top : (2 : ℝ) ^ (1024 : ℤ) = 2 ^ (53 : ℤ) * 2 ^ (971 : ℤ) := two_zpow_add 53 971
  cases form with
  | zero s =>
    rw [abs_zero, sub_nonneg]
    exact zpow_le_zpow_right₀ one_le_two (by norm_num)
  | @finite s m e pos canonical small =>
    have digits : (m : ℝ) ≤ 2 ^ (53 : ℤ) - 1 := by
      have : m + 1 ≤ 2 ^ 53 := canonical.digits
      rw [le_sub_iff_add_le]
      exact_mod_cast this
    rw [abs_mul, abs_apply, abs_of_pos (by positivity), top]
    calc (m * 2 ^ e : ℝ) ≤ (2 ^ (53 : ℤ) - 1) * 2 ^ (971 : ℤ) := by
          gcongr
          exact one_le_two
      _ = 2 ^ (53 : ℤ) * 2 ^ (971 : ℤ) - 2 ^ (971 : ℤ) := sub_one_mul _ _

theorem neg (form : SignedForm u r) : SignedForm u.neg (-r) := by
  cases form with
  | zero s =>
    rw [neg_zero]
    exact .zero _
  | finite s pos canonical small =>
    have negated := SignedForm.finite (-s) pos canonical small
    rw [apply_neg, Int.cast_neg, neg_mul] at negated
    exact negated

end SignedForm

/-! ### Results -/

/-- An integer of either sign is scaled and rounded. -/
theorem exists_magnitude_normalize (k e : ℤ) :
    ∃ s, Magnitude (UnpackedFloat.normalize .binary64 k e .positive) s (rounded |k * 2 ^ e|) := by
  rcases le_or_gt 0 k with nonneg | negative
  · have number : (0 : ℝ) ≤ k * 2 ^ e := by positivity
    rw [abs_of_nonneg number]
    exact ⟨_, magnitude_normalize nonneg⟩
  · obtain ⟨n, rfl⟩ : ∃ n : ℕ, k = -n := ⟨k.natAbs, by omega⟩
    have pos : 0 < n := by omega
    have size : |((-n : ℤ) * 2 ^ e : ℝ)| = n * 2 ^ e := by
      rw [abs_mul, abs_of_pos (by positivity : (0 : ℝ) < 2 ^ e)]
      simp
    rw [size, UnpackedFloat.normalize, compare_lt_iff_lt.2 negative]
    simp only [neg_neg, Int.toNat_natCast]
    exact ⟨_, magnitude_round pos⟩

theorem SignedForm.add (first : SignedForm u r) (second : SignedForm u' t) :
    ∃ s, Magnitude (UnpackedFloat.add .binary64 u u') s (rounded |r + t|) := by
  cases first with
  | zero s =>
    rw [zero_add]
    cases second with
    | zero s' => cases s <;> cases s' <;> exact (SignedForm.zero _).magnitude
    | finite s' pos canonical small => exact (SignedForm.finite s' pos canonical small).magnitude
  | finite s pos canonical small =>
    cases second with
    | zero s' =>
      rw [add_zero]
      exact (SignedForm.finite s pos canonical small).magnitude
    | @finite s' n f pos' canonical' small' =>
      rename_i m e
      -- Both mantissas are brought to the lower exponent, where they are added as integers.
      have sum := exists_magnitude_normalize (s.apply (decreaseExponent m e (min e f)).1 +
        s'.apply (decreaseExponent n f (min e f)).1) (min e f)
      push_cast at sum
      rw [add_mul, apply_decreaseExponent s (min_le_left e f),
        apply_decreaseExponent s' (min_le_right e f)] at sum
      exact sum

/-- To subtract is to add the other sign. -/
theorem SignedForm.sub_eq (first : SignedForm u r) (second : SignedForm u' t) :
    UnpackedFloat.sub .binary64 u u' = UnpackedFloat.add .binary64 u u'.neg := by
  cases first with
  | zero => cases second <;> rfl
  | finite s =>
    cases second with
    | zero => rfl
    | finite s' =>
      have turned (k k' : ℤ) : s.apply k - s'.apply k' = s.apply k + (-s').apply k' := by
        rw [apply_neg, sub_eq_add_neg]
      exact congrArg (UnpackedFloat.normalize .binary64 · _ .positive) (turned _ _)

theorem Magnitude.exists_signedForm (size : Magnitude u s c) (small : c < 2 ^ (1024 : ℤ)) :
    ∃ r, SignedForm u r := by
  cases size with
  | zero => exact ⟨0, .zero s⟩
  | finite pos canonical => exact ⟨_, .finite s pos canonical (canonical.lt_iff.1 small)⟩

/-! ### Doubles -/

/-- The doubles between the infinities are those that stand for a number. -/
theorem isFinite_iff : Scalar.isFinite x = true ↔ ∃ r, Denotes x r := by
  have lower : Scalar.lt Scalar.negInf x = true ↔
      (UnpackedFloat.infinity .negative).compare x.toModel.unpack = some .lt :=
    decide_eq_true_iff.trans lt_iff_compare
  have upper : Scalar.lt x Scalar.posInf = true ↔
      x.toModel.unpack.compare (.infinity .positive) = some .lt :=
    decide_eq_true_iff.trans lt_iff_compare
  rw [Scalar.isFinite, Bool.and_eq_true, lower, upper]
  unfold Denotes
  cases unpacked : x.toModel.unpack with
  | notANumber =>
    constructor
    · rintro ⟨above, -⟩
      cases above
    · rintro ⟨r, form⟩
      cases form
  | infinity s =>
    constructor
    · rintro ⟨above, below⟩
      cases s with
      | negative => cases above
      | positive => cases below
    · rintro ⟨r, form⟩
      cases form
  | zero s => exact ⟨fun _ => ⟨0, .zero s⟩, fun _ => ⟨by cases s <;> rfl, by cases s <;> rfl⟩⟩
  | finite s m e pos =>
    obtain ⟨canonical, small⟩ := canonical_of_unpack unpacked
    exact ⟨fun _ => ⟨_, .finite s pos canonical small⟩, fun _ => ⟨rfl, rfl⟩⟩

/-- The sign of a number is turned. -/
theorem unpack_neg (number : x.toModel.unpack ≠ .notANumber) :
    (-x).toModel.unpack = x.toModel.unpack.neg := by
  change (Float.Model.pack x.toModel.unpack.neg).unpack = _
  cases unpacked : x.toModel.unpack with
  | notANumber => exact absurd unpacked number
  | infinity s => exact unpack_signedInfinity (-s)
  | zero s => exact unpack_signedZero (-s)
  | finite s m e pos =>
    obtain ⟨canonical, small⟩ := canonical_of_unpack unpacked
    exact (unpack_pack canonical).trans (if_pos small)

theorem unpack_neg_neg (number : x.toModel.unpack ≠ .notANumber) :
    (-(-x)).toModel.unpack = x.toModel.unpack := by
  have turned := unpack_neg number
  have number' : (-x).toModel.unpack ≠ .notANumber := by
    rw [turned]
    cases unpacked : x.toModel.unpack with
    | notANumber => exact absurd unpacked number
    | _ => exact UnpackedFloat.noConfusion
  rw [unpack_neg number', turned]
  cases x.toModel.unpack with
  | notANumber => rfl
  | zero s | infinity s | finite s => cases s <;> rfl

/-- The size of a number, with a minus, is not above zero. -/
theorem neg_abs_le_zero (number : x.toModel.unpack ≠ .notANumber) :
    Scalar.le (-Scalar.abs x) Scalar.zero = true := by
  have negative {y : Float} : Scalar.lt y Scalar.zero = true ↔
      y.toModel.unpack.compare (.zero .positive) = some .lt :=
    decide_eq_true_iff.trans lt_iff_compare
  have zero {y : Float} : Scalar.eq y Scalar.zero = true ↔
      y.toModel.unpack.compare (.zero .positive) = some .eq := beq_iff_compare
  rw [Scalar.le, Bool.or_eq_true, negative, zero, Scalar.abs]
  split
  · next below =>
    rw [unpack_neg_neg number]
    exact .inl (negative.1 below)
  · next above =>
    rw [negative] at above
    rw [unpack_neg number]
    cases unpacked : x.toModel.unpack with
    | notANumber => exact absurd unpacked number
    | zero s => exact .inr rfl
    | infinity s | finite s =>
      -- The sign is positive, since the number is not below zero.
      rw [unpacked] at above
      cases s with
      | negative => exact absurd rfl above
      | positive => exact .inl rfl

namespace Denotes

theorem add (first : Denotes x r) (second : Denotes y t) : Sized (x + y) |r + t| := by
  obtain ⟨s, size⟩ := SignedForm.add first second
  exact .mk size rfl

theorem sub (first : Denotes x r) (second : Denotes y t) : Sized (x - y) |r - t| := by
  obtain ⟨s, size⟩ := SignedForm.add first (SignedForm.neg second)
  rw [← first.sub_eq second, ← sub_eq_add_neg] at size
  exact .mk size rfl

end Denotes

namespace Sized

theorem ne_notANumber (sized : Sized x c) : x.toModel.unpack ≠ .notANumber := by
  obtain ⟨size, rfl⟩ := sized
  rw [size.unpack_pack]
  generalize rounded c = q at size
  split
  · cases size <;> exact UnpackedFloat.noConfusion
  · exact UnpackedFloat.noConfusion

/-- A result is finite if the exact one is less than half a step above the largest double. -/
theorem isFinite (sized : Sized x c) (nonneg : 0 ≤ c)
    (small : c < 2 ^ (1024 : ℤ) - 2 ^ (970 : ℤ)) : Scalar.isFinite x = true := by
  obtain ⟨size, rfl⟩ := sized
  have inRange := rounded_lt_of_lt nonneg small
  obtain ⟨r, form⟩ := size.exists_signedForm inRange
  rw [isFinite_iff]
  refine ⟨r, ?_⟩
  rw [Denotes, size.unpack_pack, if_pos inRange]
  exact form

end Sized

/-- An amount that is not infinite is the number that its double stands for. -/
theorem Amount.exists_denotes (amount : Amount x v) (finite : v ≠ ⊤) :
    ∃ r : ℝ, v = r ∧ Denotes x r := by
  unfold Amount at amount
  unfold Denotes
  generalize x.toModel.unpack = u at amount
  cases amount with
  | top => exact absurd rfl finite
  | zero s => exact ⟨0, rfl, .zero s⟩
  | finite pos canonical small => exact ⟨_, rfl, .finite .positive pos canonical small⟩

end Posterior.Double
