import Posterior.Proofs.Double.Nearest

/-!
# How results are rounded

A result is computed as an integer part with two more bits: the digit behind it, and whether there
is anything behind that. Shifting to the right keeps what the bits say, so that at the end they
decide to which side the exact result is rounded.

## Main definitions

* `Double.Describes` — the number that an integer part and the two bits stand for
* `Double.Canonical` — mantissas and exponents in the form that doubles have
* `Double.Magnitude` — the sign and the size of an unpacked double

## Main results

* `Double.magnitude_roundWithAccuracy`, `Double.magnitude_normalize` — a result is the rounded point
  of its grid
-/

namespace Posterior.Double

open Float.Model Float.Model.UnpackedFloat

variable {em : ExtendedMantissa} {s : Sign} {m n k : ℕ} {e f : ℤ} {x : ℝ} {acc : Accuracy}

/-! ### The two bits -/

/-- The integer part of a number, the digit behind it, and whether there is more. -/
inductive Describes (em : ExtendedMantissa) (x : ℝ) : Prop
  | mk (rest : ℝ) : 0 ≤ rest → rest < 1 → 2 * x = 2 * em.mantissa + em.roundBit.toNat + rest →
    (em.stickyBit = true ↔ 0 < rest) → Describes em x

theorem describes_exact (m : ℕ) : Describes (.ofMantissaAndAccuracy m .exact) m :=
  ⟨0, le_rfl, one_pos, by simp [ExtendedMantissa.ofMantissaAndAccuracy],
    by simp [ExtendedMantissa.ofMantissaAndAccuracy]⟩

/-- A fraction is described by how it compares with a half. -/
theorem describes_fraction (m : ℕ) {num den : ℕ} (less : num < den) :
    Describes (.ofMantissaAndAccuracy m (accuracyOfFraction num den)) (m + num / den) := by
  have pos : (0 : ℝ) < den := by exact_mod_cast (Nat.zero_le num).trans_lt less
  unfold accuracyOfFraction
  split
  · next none => simpa [none] using describes_exact m
  next some =>
  have part : (0 : ℝ) < num / den := by
    have : (0 : ℝ) < num := by exact_mod_cast Nat.pos_of_ne_zero some
    positivity
  have twice : 2 * ((num : ℝ) / den) * den = (2 * num : ℕ) := by
    push_cast
    field_simp
  rcases lt_trichotomy (2 * num) den with low | half | high
  · have few : 2 * ((num : ℝ) / den) < 1 := by
      rw [← mul_lt_mul_iff_left₀ pos, twice, one_mul]
      exact_mod_cast low
    rw [compare_lt_iff_lt.2 low]
    exact ⟨2 * (num / den), by positivity, few, by simp [ExtendedMantissa.ofMantissaAndAccuracy]; ring,
      by simpa [ExtendedMantissa.ofMantissaAndAccuracy] using part⟩
  · have even : 2 * ((num : ℝ) / den) = 1 := by
      rw [← mul_left_inj' pos.ne', twice, one_mul, half]
    rw [compare_eq_iff_eq.2 half]
    exact ⟨0, le_rfl, one_pos, by simp [ExtendedMantissa.ofMantissaAndAccuracy]; linarith,
      by simp [ExtendedMantissa.ofMantissaAndAccuracy]⟩
  · have many : 1 < 2 * ((num : ℝ) / den) := by
      rw [← mul_lt_mul_iff_left₀ pos, twice, one_mul]
      exact_mod_cast high
    have proper : (num : ℝ) / den < 1 := by
      rw [div_lt_one pos]
      exact_mod_cast less
    rw [compare_gt_iff_gt.2 high]
    exact ⟨2 * (num / den) - 1, by linarith, by linarith,
      by simp [ExtendedMantissa.ofMantissaAndAccuracy]; ring,
      by simpa [ExtendedMantissa.ofMantissaAndAccuracy] using many⟩

namespace Describes

theorem floor_eq (described : Describes em x) : ⌊x⌋₊ = em.mantissa := by
  obtain ⟨rest, nonneg, below, parts, -⟩ := described
  have bit : (em.roundBit.toNat : ℝ) ≤ 1 := by exact_mod_cast Bool.toNat_le _
  have bit' : (0 : ℝ) ≤ em.roundBit.toNat := Nat.cast_nonneg _
  exact Nat.floor_eq_on_Ico _ _ ⟨by linarith, by linarith⟩

theorem nonneg (described : Describes em x) : 0 ≤ x := by
  obtain ⟨rest, nonneg, -, parts, -⟩ := described
  have : (0 : ℝ) ≤ 2 * em.mantissa + em.roundBit.toNat := by positivity
  linarith

/-- The bits tell how to round. -/
theorem roundedMantissa_eq (described : Describes em x) : em.roundedMantissa = halfEven x := by
  rw [halfEven_eq, described.floor_eq]
  obtain ⟨rest, nonneg, below, parts, sticky⟩ := described
  obtain ⟨m, digit, more⟩ := em
  have frac : 2 * (x - m) = digit.toNat + rest := by linarith
  rw [frac]
  cases digit <;> cases more
  · obtain rfl : rest = 0 := le_antisymm (not_lt.1 (mt sticky.2 Bool.false_ne_true)) nonneg
    simp [ExtendedMantissa.roundedMantissa, ExtendedMantissa.accuracy, Accuracy.roundToNearestEven]
  · simp [ExtendedMantissa.roundedMantissa, ExtendedMantissa.accuracy, Accuracy.roundToNearestEven,
      below]
  · obtain rfl : rest = 0 := le_antisymm (not_lt.1 (mt sticky.2 Bool.false_ne_true)) nonneg
    simp [ExtendedMantissa.roundedMantissa, ExtendedMantissa.accuracy, Accuracy.roundToNearestEven]
  · have pos : 0 < rest := sticky.1 rfl
    simp [ExtendedMantissa.roundedMantissa, ExtendedMantissa.accuracy, Accuracy.roundToNearestEven,
      pos, pos.le]

theorem shiftRightOne (described : Describes em x) : Describes em.shiftRightOne (x / 2) := by
  obtain ⟨rest, nonneg, below, parts, sticky⟩ := described
  obtain ⟨m, digit, more⟩ := em
  have last : ((m % 2 != 0).toNat : ℝ) = (m % 2 : ℕ) := by
    rcases Nat.mod_two_eq_zero_or_one m with even | odd
    · simp [even]
    · simp [odd]
  have halves : (m : ℝ) = 2 * (m / 2 : ℕ) + (m % 2 : ℕ) := by exact_mod_cast (Nat.div_add_mod m 2).symm
  have bit : (digit.toNat : ℝ) ≤ 1 := by exact_mod_cast Bool.toNat_le _
  refine ⟨(digit.toNat + rest) / 2, by positivity, by linarith, ?_, ?_⟩
  · simp only [ExtendedMantissa.shiftRightOne, last] at parts ⊢
    linarith
  · cases digit with
    | false => simpa [ExtendedMantissa.shiftRightOne] using sticky
    | true =>
      have pos : 0 < 1 + rest := by linarith
      simp [ExtendedMantissa.shiftRightOne, pos]

theorem shiftRight (described : Describes em x) (n : ℕ) : Describes (em >>> n) (x / 2 ^ n) := by
  change Describes (n.repeat ExtendedMantissa.shiftRightOne em) _
  induction n with
  | zero => simpa [Nat.repeat] using described
  | succ n ih =>
    rw [Nat.repeat, pow_succ, ← div_div]
    exact ih.shiftRightOne

end Describes

/-! ### The exponent that is aimed at -/

/-- Mantissas and exponents in the form that doubles have: 53 digits, all of them used unless the
exponent is the lowest. -/
structure Canonical (m : ℕ) (e : ℤ) : Prop where
  digits : m < 2 ^ 53
  lowest : -1074 ≤ e
  full : -1074 < e → 2 ^ 52 ≤ m

/-- The sign and the size of an unpacked double. -/
inductive Magnitude : UnpackedFloat → Sign → ℝ → Prop
  | zero (s : Sign) : Magnitude (.zero s) s 0
  | finite {s : Sign} {m : ℕ} {e : ℤ} (pos : 0 < m) : Canonical m e →
    Magnitude (.finite s m e pos) s (m * 2 ^ e)

/-- The exponent that a result is shifted to. -/
def target (m : ℕ) (e : ℤ) : ℤ := Format.binary64.targetExponent (totalExponent m e)

theorem target_eq (m : ℕ) (e : ℤ) : target m e = max (m.log2 + e - 52) (-1074) := by
  have digits : Format.binary64.mantissaBits = 53 := rfl
  have lowest : Format.binary64.minExponent = -1074 := rfl
  rw [target, Format.targetExponent, totalExponent, digits, lowest]
  omega

/-- Unless its exponent is too large, a result is shifted to the grid of the exact one. -/
theorem grid_eq (described : Describes em x) (fine : e ≤ target em.mantissa e) (pos : 0 < x) :
    grid (x * 2 ^ e) = target em.mantissa e := by
  have unit : (0 : ℝ) < 2 ^ e := by positivity
  rw [target_eq] at fine ⊢
  rcases Nat.eq_zero_or_pos em.mantissa with none | some
  · -- Below one, the grid is the finest.
    have below : x < 1 := by
      have := Nat.lt_floor_add_one x
      rwa [described.floor_eq, none, Nat.cast_zero, zero_add] at this
    simp only [none, Nat.log2_zero] at fine ⊢
    have less : x * 2 ^ e < ((2 : ℕ) : ℝ) ^ e := by
      push_cast
      exact mul_lt_of_lt_one_left unit below
    have small := (Int.lt_zpow_iff_log_lt Nat.one_lt_two (by positivity)).1 less
    unfold grid
    omega
  · have least : ((2 : ℕ) : ℝ) ^ (em.mantissa.log2 + e) ≤ x * 2 ^ e := by
      rw [Nat.cast_ofNat, two_zpow_add, zpow_natCast]
      gcongr
      have reached : (em.mantissa : ℝ) ≤ x := described.floor_eq ▸ Nat.floor_le pos.le
      refine le_trans ?_ reached
      exact_mod_cast Nat.log2_self_le some.ne'
    have most : x * 2 ^ e < ((2 : ℕ) : ℝ) ^ (em.mantissa.log2 + e + 1) := by
      rw [Nat.cast_ofNat, add_right_comm, two_zpow_add]
      gcongr
      have under : x < em.mantissa + 1 := described.floor_eq ▸ Nat.lt_floor_add_one x
      refine under.trans_le ?_
      exact_mod_cast Nat.lt_log2_self
    have log : Int.log 2 (x * 2 ^ e) = em.mantissa.log2 + e := by
      have lower := (Int.zpow_le_iff_le_log Nat.one_lt_two (by positivity)).1 least
      have upper := (Int.lt_zpow_iff_log_lt Nat.one_lt_two (by positivity)).1 most
      omega
    rw [grid, log]

/-! ### Rounding -/

/-- Rounding up may add a digit, and then the mantissa is shifted once more. -/
theorem exists_carry (digits : k ≤ 2 ^ 53) (lowest : -1074 ≤ e) (full : -1074 < e → 2 ^ 52 ≤ k) :
    ∃ m f, Canonical m f ∧ (m * 2 ^ f : ℝ) = k * 2 ^ e ∧
      shiftToTargetExponent .binary64 k e .exact = (⟨m, false, false⟩, f) := by
  have aim (k : ℕ) (e : ℤ) : shiftToTargetExponent .binary64 k e .exact =
      shiftToExponent k e .exact (target k e) := rfl
  rcases digits.lt_or_eq with fewer | rfl
  · refine ⟨k, e, ⟨fewer, lowest, full⟩, rfl, ?_⟩
    have stay : (target k e - e).toNat = 0 := by
      have small : k.log2 ≤ 52 := by
        rcases Nat.eq_zero_or_pos k with rfl | pos
        · simp
        · exact Nat.le_of_lt_succ ((Nat.log2_lt pos.ne').2 fewer)
      rw [target_eq]
      omega
    rw [aim, shiftToExponent, stay]
    simp only [Nat.cast_zero, add_zero]
    rfl
  · refine ⟨2 ^ 52, e + 1, ⟨by norm_num, by omega, fun _ => le_rfl⟩, ?_, ?_⟩
    · rw [zpow_add_one₀ two_ne_zero]
      push_cast
      ring
    · have step : (target (2 ^ 53) e - e).toNat = 1 := by
        rw [target_eq, Nat.log2_two_pow]
        omega
      rw [aim, shiftToExponent, step]
      rfl

/-- Shifted to the exponent that is aimed at, what is described is rounded to a mantissa that stands
for the nearest point of its grid. -/
theorem rounded_eq_roundedMantissa (described : Describes em x) {n : ℕ}
    (reached : e + n = target em.mantissa e) :
    rounded (x * 2 ^ e) = (em >>> n).roundedMantissa * 2 ^ target em.mantissa e ∧
      (em >>> n).roundedMantissa ≤ 2 ^ 53 ∧
      (-1074 < target em.mantissa e → 2 ^ 52 ≤ (em >>> n).roundedMantissa) := by
  have fine : e ≤ target em.mantissa e := by omega
  have scaled : x * 2 ^ e / 2 ^ target em.mantissa e = x / 2 ^ n := by
    rw [← reached, two_zpow_add, zpow_natCast, mul_comm x,
      mul_div_mul_left _ _ (by positivity : (2 : ℝ) ^ e ≠ 0)]
  rw [(described.shiftRight n).roundedMantissa_eq, ← scaled]
  rcases described.nonneg.eq_or_lt with rfl | pos
  · -- Nothing has no digits, and the finest grid is aimed at.
    have none : em.mantissa = 0 := by
      rw [← described.floor_eq, Nat.floor_zero]
    have finest : target em.mantissa e = -1074 := by
      rw [none, target_eq, Nat.log2_zero] at fine ⊢
      omega
    have zero : halfEven 0 = 0 := by rw [halfEven_eq_zero_iff]; simp
    rw [zero_mul, zero_div, zero, Nat.cast_zero, zero_mul, finest]
    exact ⟨(rounded_eq_zero_iff le_rfl).2 (by positivity), Nat.zero_le _,
      fun coarse => absurd coarse (lt_irrefl _)⟩
  · have pos' : 0 < x * 2 ^ e := by positivity
    rw [← grid_eq described fine pos]
    exact ⟨rounded_eq _, halfEven_div_grid_le pos'.le, le_halfEven_div_grid pos'⟩

/-- What is described is rounded to the nearest point of its grid. -/
theorem magnitude_roundWithAccuracy (described : Describes (.ofMantissaAndAccuracy m acc) x)
    (fine : e ≤ target m e) : Magnitude (roundWithAccuracy .binary64 s m e acc) s
      (rounded (x * 2 ^ e)) := by
  have mantissa : (ExtendedMantissa.ofMantissaAndAccuracy m acc).mantissa = m := by
    unfold ExtendedMantissa.ofMantissaAndAccuracy
    split <;> rfl
  obtain ⟨n, reached⟩ := Int.le.dest fine
  have amount : (target m e - e).toNat = n := by omega
  have first : shiftToTargetExponent .binary64 m e acc =
      (ExtendedMantissa.ofMantissaAndAccuracy m acc >>> n, target m e) := by
    change (ExtendedMantissa.ofMantissaAndAccuracy m acc >>> (target m e - e).toNat,
      e + (target m e - e).toNat) = _
    rw [amount, reached]
  have point := rounded_eq_roundedMantissa described (mantissa ▸ reached)
  rw [mantissa] at point
  obtain ⟨value, digits, full⟩ := point
  have lowest : -1074 ≤ target m e := by
    rw [target_eq]
    exact le_max_right _ _
  -- The mantissa is shifted twice: before it is rounded, and after it if that added a digit.
  obtain ⟨c, f, canonical, same, carried⟩ := exists_carry digits lowest full
  rw [value, ← same, roundWithAccuracy, first]
  dsimp only
  rw [carried]
  dsimp only
  by_cases none : c = 0
  · rw [dif_pos none, none, Nat.cast_zero, zero_mul]
    exact .zero s
  · rw [dif_neg none]
    exact .finite (Nat.pos_of_ne_zero none) canonical

/-- A mantissa is rounded to the nearest point of its grid. -/
theorem magnitude_round (pos : 0 < m) : Magnitude (UnpackedFloat.round .binary64 s m e) s (rounded (m * 2 ^ e)) := by
  set n := (e - target m e).toNat with amount
  have log : (m <<< n).log2 = m.log2 + n := by
    rw [Nat.shiftLeft_eq, Nat.log2_eq_iff (by positivity), pow_add, add_right_comm, pow_add]
    exact ⟨Nat.mul_le_mul_right _ (Nat.log2_self_le pos.ne'),
      Nat.mul_lt_mul_of_pos_right Nat.lt_log2_self (by positivity)⟩
  have fine : e - n ≤ target (m <<< n) (e - n) := by
    rw [target_eq, log]
    rw [target_eq] at amount
    omega
  have result := magnitude_roundWithAccuracy (s := s) (describes_exact (m <<< n)) fine
  have same : ((m <<< n : ℕ) * 2 ^ (e - n : ℤ) : ℝ) = m * 2 ^ e := by
    rw [Nat.shiftLeft_eq, zpow_sub₀ two_ne_zero, zpow_natCast]
    push_cast
    field_simp
  rw [same] at result
  exact result

/-- An integer that is not negative is scaled and rounded. -/
theorem magnitude_normalize {n : ℤ} (nonneg : 0 ≤ n) :
    Magnitude (UnpackedFloat.normalize .binary64 n e .positive) .positive (rounded (n * 2 ^ e)) := by
  unfold UnpackedFloat.normalize
  rcases nonneg.eq_or_lt with rfl | pos
  · rw [compare_eq_iff_eq.2 rfl, Int.cast_zero, zero_mul,
      (rounded_eq_zero_iff le_rfl).2 (by positivity)]
    exact .zero _
  · obtain ⟨k, rfl⟩ := Int.eq_ofNat_of_zero_le nonneg
    rw [compare_gt_iff_gt.2 pos]
    exact magnitude_round (by exact_mod_cast pos)

/-! ### Results before they are rounded -/

/-- Shifted to an exponent that is not larger, a mantissa stands for the same number. -/
theorem decreaseExponent_value {m : ℕ} {e t : ℤ} (le : t ≤ e) :
    ((decreaseExponent m e t).1 * 2 ^ t : ℝ) = m * 2 ^ e := by
  obtain ⟨n, rfl⟩ := Int.le.dest le
  have amount : (t + n - t).toNat = n := by omega
  rw [decreaseExponent, amount, Nat.shiftLeft_eq, add_comm t, two_zpow_add, zpow_natCast]
  push_cast
  ring

/-- A product of mantissas has enough digits to be rounded to 53 of them. -/
theorem product_fine (first : Canonical m e) (second : Canonical n f) (some : 0 < m)
    (some' : 0 < n) : e + f ≤ target (m * n) (e + f) := by
  rw [target_eq]
  by_cases lowest : e + f ≤ -1074
  · exact lowest.trans (le_max_right _ _)
  · have full : 2 ^ 52 ≤ m * n := by
      rcases first.lowest.eq_or_lt with rfl | above
      · exact (second.full (by omega)).trans (Nat.le_mul_of_pos_left _ some)
      · exact (first.full above).trans (Nat.le_mul_of_pos_right _ some')
    have digits := (Nat.le_log2 (Nat.mul_pos some some').ne').2 full
    omega

/-- The quotient of mantissas is taken with enough digits to be rounded to 53 of them. -/
theorem quotient_fine {t : ℤ} (some : 0 < m) (some' : 0 < n) {k : ℕ} (shift : t + k = e - f)
    (aim : t ≤ max (totalExponent m e - totalExponent n f - 53) (-1074)) :
    t ≤ target (m <<< k / n) t := by
  rw [target_eq]
  by_cases lowest : t ≤ -1074
  · exact lowest.trans (le_max_right _ _)
  · have digits : n.log2 + 53 ≤ m.log2 + k := by
      unfold totalExponent at aim
      omega
    have full : 2 ^ 52 ≤ m <<< k / n := by
      rw [Nat.le_div_iff_mul_le some', Nat.shiftLeft_eq]
      calc 2 ^ 52 * n ≤ 2 ^ 52 * 2 ^ (n.log2 + 1) := Nat.mul_le_mul_left _ Nat.lt_log2_self.le
        _ = 2 ^ (n.log2 + 53) := by rw [← pow_add]; congr 1; omega
        _ ≤ 2 ^ (m.log2 + k) := Nat.pow_le_pow_right two_pos digits
        _ = 2 ^ m.log2 * 2 ^ k := pow_add _ _ _
        _ ≤ m * 2 ^ k := Nat.mul_le_mul_right _ (Nat.log2_self_le some.ne')
    have pos : m <<< k / n ≠ 0 := by omega
    have most := (Nat.le_log2 pos).2 full
    omega

/-- The integer part of a quotient and the rest, at the exponent that they are taken at. -/
theorem quotient_value {t : ℤ} (some' : 0 < n) (shift : t + k = e - f) :
    ((m <<< k / n : ℕ) + ((m <<< k % n : ℕ) : ℝ) / n) * 2 ^ t = m * 2 ^ e / (n * 2 ^ f) := by
  have pos : (0 : ℝ) < n := by exact_mod_cast some'
  have whole : ((m <<< k / n : ℕ) : ℝ) * n + (m <<< k % n : ℕ) = m * 2 ^ k := by
    have shifted : (m : ℝ) * 2 ^ k = (m <<< k : ℕ) := by
      rw [Nat.shiftLeft_eq]
      push_cast
      rfl
    rw [shifted]
    exact_mod_cast Nat.div_add_mod' _ _
  have scale : (2 : ℝ) ^ e = 2 ^ t * 2 ^ k * 2 ^ f := by
    rw [← zpow_natCast, ← two_zpow_add, ← two_zpow_add]
    congr 1
    omega
  rw [scale]
  field_simp
  rw [whole]

theorem magnitude_quotient (some : 0 < m) (some' : 0 < n) :
    Magnitude (UnpackedFloat.div .binary64 (.finite .positive m e some) (.finite .positive n f some'))
      .positive (rounded (m * 2 ^ e / (n * 2 ^ f))) := by
  set t := min (e - f) (Format.binary64.targetExponent (totalExponent m e - totalExponent n f))
  obtain ⟨k, shift⟩ := Int.le.dest (min_le_left (e - f) _ : t ≤ e - f)
  have amount : (e - f - t).toNat = k := by omega
  have aim : t ≤ max (totalExponent m e - totalExponent n f - 53) (-1074) := min_le_right _ _
  have quotient := magnitude_roundWithAccuracy (s := .positive)
    (describes_fraction (m <<< k / n) (Nat.mod_lt (m <<< k) some')) (quotient_fine some some' shift aim)
  rw [quotient_value some' shift] at quotient
  change Magnitude (roundWithAccuracy .binary64 .positive (m <<< (e - f - t).toNat / n) t
    (accuracyOfFraction (m <<< (e - f - t).toNat % n) n)) _ _
  rw [amount]
  exact quotient

end Posterior.Double
