import Mathlib.Data.EReal.Inv
import Posterior.Proofs.Choices
import Posterior.Proofs.Double.Weights

/-!
# What is listed and what is scored

A distribution lists the values with positive probability, and it scores any value with the logarithm
of its probability. The two are computed apart, and doubles round the probabilities that are scored:
a value can be listed whose probability is rounded to nothing. That happens to the choice of an index
by weight, where the share of a weight in the sum of all may be too small for a double, or the sum
too large. A coin flip and a uniform choice score exactly what they list.

## Main definitions

* `Distribution.Agrees` — which of the listed values are scored above minus infinity
* `Double.IsLogarithm` — what is needed of the logarithm

## Main results

* `Distribution.support_agrees` — what the elementary random choices list and score
* `Distribution.listed_unscored` — weights whose sum is infinite
-/

namespace Posterior

namespace Distribution

/-- No value is listed twice, no score is above zero, and a score is above minus infinity exactly for
the listed values among those that are seen. -/
structure Agrees {X : Type} [Scalar X] (d : Distribution X) (params : List Value)
    (seen : Value → Prop) : Prop where
  distinct : ∀ vs, d.support params = .ok vs → vs.Pairwise fun u v => (u == v) = false
  nonpos : ∀ v l, d.score params v = .ok l → Scalar.le l Scalar.zero = true
  scored : ∀ vs v l, d.support params = .ok vs → d.score params v = .ok l →
    (Scalar.lt Scalar.negInf l = true ↔ v.isIn vs = true ∧ seen v)

end Distribution

namespace Double

variable {ln : Float → Float} {x : Float} {a : EReal}

/-- The logarithm of a probability is finite, and not above zero. -/
def IsLogarithm (ln : Float → Float) : Prop :=
  ∀ x : Float, Scalar.lt Scalar.zero x = true → Scalar.le x Scalar.one = true →
    Scalar.lt Scalar.negInf (ln x) = true ∧ Scalar.le (ln x) Scalar.zero = true

/-- The score of a probability is not above zero, and above minus infinity if the probability is not
zero. -/
theorem ln_probability (logarithm : IsLogarithm ln) (amount : Amount x a) (le : a ≤ 1) :
    (Scalar.lt Scalar.negInf (Scalar.ln x : Double ln) = true ↔ 0 < a) ∧
      Scalar.le (Scalar.ln x : Double ln) Scalar.zero = true := by
  have unfolded : (Scalar.ln x : Double ln) = if x == 0 then (-1 / 0 : Float) else ln x := rfl
  rw [unfolded]
  split
  · next zero =>
    have none := (amount.beq_iff .zero).1 zero
    have lowest : Scalar.lt (Scalar.negInf : Float) (-1 / 0) = false := by decide +kernel
    have below : Scalar.le (-1 / 0 : Float) Scalar.zero = true := by decide +kernel
    rw [none]
    exact ⟨iff_of_false (Bool.eq_false_iff.1 lowest) (lt_irrefl _), below⟩
  · next some =>
    have positive : 0 < a := by
      apply amount.nonneg.lt_of_ne
      intro zero
      exact some ((amount.beq_iff .zero).2 zero.symm)
    have scored := logarithm x ((lt_iff ln .zero amount).2 positive)
      ((le_iff ln amount amount_one).2 le)
    exact ⟨iff_of_true scored.1 positive, scored.2⟩

end Double

namespace Distribution

variable {ln : Float → Float} {params : List Value} {v : Value}

/-! ### Coin flips -/

theorem bernoulliWeight_eq_ok {w : Double ln} (accepted : bernoulliWeight params = .ok w) :
    ∃ a, Double.Amount w a ∧ a ≤ 1 := by
  obtain ⟨-, least, most⟩ := bernoulliWeight_eq_ok_iff.1 accepted
  obtain ⟨a, amount⟩ := Double.exists_amount_of_le least
  exact ⟨a, amount, (Double.le_iff ln amount Double.amount_one).1 most⟩

/-- The other side of a coin has what the first leaves of one, which is nothing only if the first has
it all. -/
theorem exists_one_sub {w : Double ln} {a : EReal} (amount : Double.Amount w a) (le : a ≤ 1) :
    ∃ b, Double.Amount (Scalar.one - w : Double ln) b ∧ b ≤ 1 ∧ (0 < b ↔ a < 1) := by
  have one : Double.Amount (Scalar.one : Double ln) 1 := Double.amount_one
  have most : 1 - a ≤ 1 := by
    simpa using EReal.sub_le_sub (le_refl 1) amount.nonneg
  have difference := one.sub amount le (EReal.coe_ne_top 1)
  rcases le.eq_or_lt with rfl | less
  · have none : (1 : EReal) - 1 = 0 := EReal.sub_self (EReal.coe_ne_top 1) (EReal.coe_ne_bot 1)
    rw [none, Double.IsValue.zero.nearest_eq] at difference
    exact ⟨0, difference, zero_le_one, iff_of_false (lt_irrefl _) (lt_irrefl _)⟩
  · exact ⟨_, difference, one.isValue.nearest_le (EReal.sub_pos.2 less).le most,
      iff_of_true (one.isValue.nearest_sub_pos amount.isValue less) less⟩

/-- A side is scored above minus infinity if it is listed. -/
theorem sideScore_spec (logarithm : Double.IsLogarithm ln) {w : Double ln} {a : EReal}
    (amount : Double.Amount w a) (le : a ≤ 1) (v : Value) :
    (Scalar.lt Scalar.negInf (sideScore w v) = true ↔ v.isIn (sides w) = true) ∧
      Scalar.le (sideScore w v) Scalar.zero = true := by
  rw [isIn_sides]
  have unlikely : Scalar.lt (Scalar.negInf : Float) Scalar.negInf = false ∧
      Scalar.le (Scalar.negInf : Float) Scalar.zero = true := by decide +kernel
  cases v with
  | bool b =>
    cases b with
    | true =>
      obtain ⟨finite, nonpos⟩ := Double.ln_probability logarithm amount le
      exact ⟨finite.trans (Double.lt_iff ln .zero amount).symm, nonpos⟩
    | false =>
      -- This side is listed if the weight is below one, and scored by what it leaves of one.
      obtain ⟨b, rest, le', some⟩ := exists_one_sub amount le
      obtain ⟨finite, nonpos⟩ := Double.ln_probability logarithm rest le'
      exact ⟨finite.trans (some.trans (Double.lt_iff ln amount Double.amount_one).symm), nonpos⟩
  | unit | int | float | str | list =>
    exact ⟨iff_of_false (Bool.eq_false_iff.1 unlikely.1) Bool.false_ne_true, unlikely.2⟩

/-- The sides of a coin that are listed are those that are scored. -/
theorem bernoulli_agrees (logarithm : Double.IsLogarithm ln) (params : List Value) :
    (bernoulli : Distribution (Double ln)).Agrees params fun _ => True where
  distinct vs listed := by
    obtain ⟨w, -, rfl⟩ := map_eq_ok_iff.1 listed
    exact pairwise_sides w
  nonpos v l scored := by
    obtain ⟨w, accepted, rfl⟩ := map_eq_ok_iff.1 scored
    obtain ⟨a, amount, le⟩ := bernoulliWeight_eq_ok accepted
    exact (sideScore_spec logarithm amount le v).2
  scored vs v l listed scored := by
    obtain ⟨w, accepted, rfl⟩ := map_eq_ok_iff.1 listed
    obtain ⟨w', accepted', rfl⟩ := map_eq_ok_iff.1 scored
    obtain rfl := Except.ok.inj (accepted'.symm.trans accepted)
    obtain ⟨a, amount, le⟩ := bernoulliWeight_eq_ok accepted
    rw [and_true]
    exact (sideScore_spec logarithm amount le v).1

/-! ### Uniform choices -/

/-- A share of items is not rounded to nothing unless there are none, for as many items as can be
addressed. -/
theorem exists_hits {h n : ℕ} (le : h ≤ n) (pos : 0 < n) (small : n < 2 ^ 63) :
    ∃ q, Double.Amount (Scalar.ofNat h / Scalar.ofNat n : Double ln) q ∧ q ≤ 1 ∧ (0 < q ↔ 0 < h) := by
  have some : Double.Amount (Scalar.ofNat h : Double ln) (Double.nearest (h : ℝ)) := .ofNat h
  have all : Double.Amount (Scalar.ofNat n : Double ln) (Double.nearest (n : ℝ)) := .ofNat n
  have cast : ((h : ℝ) : EReal) ≤ (n : ℝ) := by exact_mod_cast le
  have mono := Double.nearest_mono (EReal.coe_nonneg.2 h.cast_nonneg) cast
  have positive : 0 < Double.nearest (n : ℝ) :=
    zero_lt_one.trans_le (Double.one_le_nearest_natCast pos)
  have finite : Double.nearest (n : ℝ) ≠ ⊤ :=
    ((Double.nearest_natCast_le small).trans_lt (EReal.coe_lt_top _)).ne
  have finite' : Double.nearest (h : ℝ) ≠ ⊤ := (mono.trans_lt finite.lt_top).ne
  obtain ⟨q, amount, most, seen⟩ := Double.exists_share some all mono finite' positive
  refine ⟨q, amount, most, seen.trans ?_⟩
  rcases Nat.eq_zero_or_pos h with rfl | pos'
  · have zero : Double.nearest ((0 : ℕ) : ℝ) = 0 := by
      simpa using Double.IsValue.zero.nearest_eq
    rw [zero, EReal.zero_div]
    exact iff_of_false (not_lt.2 (EReal.coe_nonneg.2 (by positivity))) (lt_irrefl _)
  · refine iff_of_true ?_ pos'
    rw [EReal.lt_div_iff positive finite]
    calc ((2 ^ (-1075 : ℤ) : ℝ) : EReal) * Double.nearest (n : ℝ)
      _ ≤ ((2 ^ (-1075 : ℤ) : ℝ) : EReal) * ((2 ^ (63 : ℤ) : ℝ) : EReal) := by
        gcongr
        exact Double.nearest_natCast_le small
      _ = ((2 ^ (-1012 : ℤ) : ℝ) : EReal) := by
        rw [← EReal.coe_mul, ← Double.two_zpow_add]
        norm_num
      _ < 1 := by
        have small : (2 : ℝ) ^ (-1012 : ℤ) < 1 := zpow_lt_one_of_neg₀ one_lt_two (by norm_num)
        exact_mod_cast small
      _ ≤ Double.nearest (h : ℝ) := Double.one_le_nearest_natCast pos'

/-- The score of an item is that of its hits among the items. -/
theorem hits_of_score {l : Double ln} (scored : uniformDraw.score params v = .ok l) :
    ∃ h ≤ params.length, 0 < params.length ∧ (0 < h ↔ v.isIn params = true) ∧
      (Scalar.ln (Scalar.ofNat h / Scalar.ofNat params.length : Double ln)) = l := by
  change (if params.isEmpty then Except.error noItems else Except.ok _) = _ at scored
  split at scored
  · cases scored
  · next some =>
    refine ⟨(params.filter fun p => p == v).length, List.length_filter_le _ _, ?_, ?_,
      Except.ok.inj scored⟩
    · exact List.length_pos_iff.2 (mt List.isEmpty_iff.2 some)
    · rw [List.length_filter_pos_iff, Value.isIn, List.any_eq_true]

/-- The items are listed and scored alike. -/
theorem uniformDraw_agrees (logarithm : Double.IsLogarithm ln) {params : List Value}
    (addressable : params.length < 2 ^ 63) :
    (uniformDraw : Distribution (Double ln)).Agrees params fun _ => True where
  distinct vs listed := by
    cases listed
    exact Value.pairwise_distinct params
  nonpos v l scored := by
    obtain ⟨h, le, pos, -, rfl⟩ := hits_of_score scored
    obtain ⟨q, amount, le, -⟩ := @exists_hits ln _ _ le pos addressable
    exact (Double.ln_probability logarithm amount le).2
  scored vs v l listed scored := by
    obtain ⟨h, le, pos, found, rfl⟩ := hits_of_score scored
    obtain ⟨q, amount, le, some⟩ := @exists_hits ln _ _ le pos addressable
    cases listed
    rw [Value.isIn_distinct, and_true, ← found, ← some]
    exact (Double.ln_probability logarithm amount le).1

/-! ### Choices by weight -/

/-- Any value has a finite weight, and is listed if it is positive. -/
theorem exists_part {ws : List (Double ln)} {t : EReal} (pos : 0 < t)
    (weights : ∀ w ∈ ws, ∃ a, Double.Amount w a ∧ a ≠ ⊤ ∧ a ≤ t) (v : Value) :
    ∃ a, Double.Amount (weightAt ws v : Double ln) a ∧ a ≠ ⊤ ∧ a ≤ t ∧
      (0 < a → v.isIn (positiveFrom 0 ws) = true) := by
  rcases weightAt_cases ws v with none | ⟨k, held, same⟩
  · rw [none]
    exact ⟨0, .zero, EReal.zero_ne_top, pos.le, fun some => absurd some (lt_irrefl _)⟩
  · obtain ⟨a, part, finite, le⟩ := weights _ (List.mem_of_getElem? held)
    refine ⟨a, part, finite, le, ?_⟩
    intro some
    refine isIn_positiveFrom_iff.2 ⟨k, _, held, ?_, ?_⟩
    · exact (Double.lt_iff ln .zero part).2 some
    · rwa [Nat.zero_add]

/-- The score of a value is that of the share of its weight, which is not rounded to nothing unless
it is too small; a value with a larger share is listed. -/
theorem exists_weight {ws : List (Double ln)} {name : String} {total : Double ln}
    (accepted : validateWeights name ws = .ok total) (v : Value) :
    ∃ q, Double.Amount (weightAt ws v / Scalar.sum ws : Double ln) q ∧ q ≤ 1 ∧
      (0 < q ↔ v.isIn (positiveFrom 0 ws) = true ∧ ((2 ^ (-1075 : ℤ) : ℝ) : EReal) <
        Scalar.exactFloat (weightAt ws v : Double ln) /
            Scalar.exactFloat (Scalar.sum ws : Double ln)) := by
  obtain ⟨t, whole, pos, weights⟩ := Double.weights_of_validate accepted
  obtain ⟨-, -, rfl⟩ := validateWeights_eq_ok_iff.1 accepted
  obtain ⟨a, part, finite, le, listed⟩ := exists_part pos weights v
  obtain ⟨q, amount, most, seen⟩ := Double.exists_share part whole le finite pos
  refine ⟨q, amount, most, ?_⟩
  rw [part.exactFloat_eq, whole.exactFloat_eq, seen]
  constructor
  · intro large
    -- Without a weight there would not be a share.
    have some : a ≠ 0 := by
      rintro rfl
      rw [EReal.zero_div] at large
      exact absurd large (not_lt.2 (EReal.coe_nonneg.2 (by positivity)))
    exact ⟨listed (part.nonneg.lt_of_ne some.symm), large⟩
  · rintro ⟨-, large⟩
    exact large

/-- The share of a value in the sum of the weights is large enough for a double: it is not rounded
to nothing. -/
structure Appreciable (ln : Float → Float) (params : List Value) (v : Value) : Prop where
  large : ∀ ws : List (Double ln), categoricalWeights params = .ok ws →
    ((2 ^ (-1075 : ℤ) : ℝ) : EReal) <
      Scalar.exactFloat (weightAt ws v : Double ln) / Scalar.exactFloat (Scalar.sum ws : Double ln)

/-- An index is listed if its weight is positive, and scored if its share is large enough. -/
theorem categorical_agrees (logarithm : Double.IsLogarithm ln) {params : List Value}
    (addressable : params.length < 2 ^ 63) :
    (categorical : Distribution (Double ln)).Agrees params (Appreciable ln params) where
  distinct vs listed := by
    obtain ⟨ws, accepted, rfl⟩ := map_eq_ok_iff.1 listed
    have length := length_of_categoricalWeights accepted
    exact pairwise_positiveFrom (by omega)
  nonpos v l scored := by
    obtain ⟨ws, accepted, rfl⟩ := map_eq_ok_iff.1 scored
    obtain ⟨-, total, valid⟩ := categoricalWeights_eq_ok_iff.1 accepted
    obtain ⟨q, amount, le, -⟩ := exists_weight valid v
    exact (Double.ln_probability logarithm amount le).2
  scored vs v l listed scored := by
    obtain ⟨ws, accepted, rfl⟩ := map_eq_ok_iff.1 listed
    obtain ⟨ws', accepted', rfl⟩ := map_eq_ok_iff.1 scored
    obtain rfl := Except.ok.inj (accepted'.symm.trans accepted)
    obtain ⟨-, total, valid⟩ := categoricalWeights_eq_ok_iff.1 accepted
    obtain ⟨q, amount, le, seen⟩ := exists_weight valid v
    rw [(Double.ln_probability logarithm amount le).1, seen]
    apply and_congr_right
    intro _
    constructor
    · intro large
      constructor
      intro ws read
      obtain rfl := Except.ok.inj (accepted.symm.trans read)
      exact large
    · intro appreciable
      exact appreciable.large _ accepted

/-- What the elementary random choices list they list once, and they score nothing above zero. A coin
flip scores a value above minus infinity exactly if it is listed, and so does a uniform choice among
as many items as can be addressed. A choice by weight does so for those of the listed indices whose
share of the sum of the weights, as it is computed, is not too small for a double. -/
theorem support_agrees (logarithm : Double.IsLogarithm ln) (params : List Value) :
    (bernoulli : Distribution (Double ln)).Agrees params (fun _ => True) ∧
      (params.length < 2 ^ 63 →
        (uniformDraw : Distribution (Double ln)).Agrees params (fun _ => True) ∧
          (categorical : Distribution (Double ln)).Agrees params (Appreciable ln params)) :=
  ⟨bernoulli_agrees logarithm params, fun addressable =>
    ⟨uniformDraw_agrees logarithm addressable, categorical_agrees logarithm addressable⟩⟩

end Distribution

/-- Values of the logarithm at a quarter, at a half, at three quarters and at one. -/
def Double.quarterLog (x : Float) : Float :=
  if x == 0.25 then -1.3862943611198906
  else if x == 0.5 then -0.6931471805599453
  else if x == 0.75 then -0.2876820724517809
  else if x == 1 then 0
  else -1

theorem Double.isLogarithm_quarterLog : IsLogarithm quarterLog := by
  intro x _ _
  unfold quarterLog
  split
  · decide +kernel
  split
  · decide +kernel
  split
  · decide +kernel
  split
  · decide +kernel
  · decide +kernel

namespace Distribution

/-- One weight in four is an integer, three are a float. Both indices are listed and scored. -/
theorem support_agrees_quarters :
    Double.IsLogarithm Double.quarterLog ∧ [Value.int 1, .float 3].length < 2 ^ 63 ∧
      (categorical : Distribution (Double Double.quarterLog)).Agrees [.int 1, .float 3]
        (Appreciable Double.quarterLog [.int 1, .float 3]) ∧
      (categorical : Distribution (Double Double.quarterLog)).support [.int 1, .float 3] =
        .ok [.int 0, .int 1] ∧
      (categorical : Distribution (Double Double.quarterLog)).score [.int 1, .float 3] (.int 0) =
        .ok (-1.3862943611198906 : Float) := by
  have small : [Value.int 1, .float 3].length < 2 ^ 63 := by decide
  have agrees := (support_agrees Double.isLogarithm_quarterLog [.int 1, .float 3]).2 small
  exact ⟨Double.isLogarithm_quarterLog, small, agrees.2, rfl, rfl⟩

/-- One and 308 zeros. -/
def huge : Value := .float (.ofBits 0x7FE1CCF385EBC8A0)

/-- The sum of two such weights is rounded to infinity, in which neither has a share. Both indices
are listed, but no value is scored as possible. -/
theorem listed_unscored :
    (categorical : Distribution Float).support [huge, huge] = .ok [.int 0, .int 1] ∧
      (categorical : Distribution Float).score [huge, huge] (.int 0) = .ok (-1 / 0) ∧
      ¬ ∀ vs v l, (categorical : Distribution Float).support [huge, huge] = .ok vs →
        (categorical : Distribution Float).score [huge, huge] v = .ok l →
        (v.isIn vs = true ↔ Scalar.lt Scalar.negInf l = true) := by
  have listed : (categorical : Distribution Float).support [huge, huge] =
      .ok [.int 0, .int 1] := rfl
  have scored : (categorical : Distribution Float).score [huge, huge] (.int 0) =
      .ok (-1 / 0) := rfl
  refine ⟨listed, scored, ?_⟩
  intro agree
  have above := (agree _ _ _ listed scored).1 rfl
  exact absurd above (by decide +kernel)

end Distribution

end Posterior
