import Posterior.Proofs.Drawing
import Posterior.Proofs.Support

/-!
# Sampled values are listed

A value is sampled and the support is listed by functions of their own: a coin compares a word from
the source with its weight, an index is where a rounded threshold passes rounded sums, and an item is
one of those that are given. Still what is sampled is always listed. The ends of the unit interval
decide about a coin: zero is drawn and one is not, so a side of weight zero never comes up, and a
side of weight one always does.

## Main definitions

* `Distribution.ListsSamples` — whatever is sampled equals a value that is listed

## Main results

* `Double.amount_unit` — what a source gives lies in the unit interval, one excluded
* `Distribution.choices_list_samples` — samples of the elementary random choices
-/

namespace Posterior

/-- The double that a source gives lies in the unit interval, one excluded. -/
theorem Double.amount_unit (source : Source) :
    ∃ u, Amount (source.unit : Float × Source).1 u ∧ u < 1 := by
  have bound : source.next64.1.toNat / 2048 < 2 ^ 53 :=
    Nat.div_lt_of_lt_mul source.next64.1.toNat_lt
  generalize n : source.next64.1.toNat / 2048 = k at bound
  have some : Amount (Float.ofNat k) (k : ℝ) := by
    have rounded := Amount.ofNat k
    rwa [(Amount.isValue_natCast bound).nearest_eq] at rounded
  have all : Amount (Float.ofNat Source.unitSteps) ((2 ^ (53 : ℤ) : ℝ) : EReal) := by
    have rounded := Amount.ofNat Source.unitSteps
    have power : ((Source.unitSteps : ℕ) : ℝ) = 2 ^ (53 : ℤ) := by norm_num [Source.unitSteps]
    rwa [power, (IsValue.two_zpow (by norm_num) (by norm_num)).nearest_eq] at rounded
  -- There are few enough steps for the quotient not to be rounded.
  have quotient : ((k : ℝ) : EReal) / ((2 ^ (53 : ℤ) : ℝ) : EReal) =
      ((k * 2 ^ (-53 : ℤ) : ℝ) : EReal) := by
    rw [← EReal.coe_div, zpow_neg, div_eq_mul_inv]
  have below : (k * 2 ^ (-53 : ℤ) : ℝ) < 1 := by
    have steps : (k : ℝ) < 2 ^ (53 : ℤ) := by exact_mod_cast bound
    rw [zpow_neg, ← div_eq_mul_inv, div_lt_one (by positivity)]
    exact steps
  have value : IsValue ((k * 2 ^ (-53 : ℤ) : ℝ) : EReal) :=
    .finite (.mk bound (by norm_num)) (below.trans (one_lt_zpow₀ one_lt_two (by norm_num)))
  have positive : (0 : EReal) < ((2 ^ (53 : ℤ) : ℝ) : EReal) := EReal.coe_pos.2 (by positivity)
  have drawn := some.div all positive (.inl (EReal.coe_ne_top _))
  rw [quotient, value.nearest_eq] at drawn
  subst n
  exact ⟨_, drawn, by exact_mod_cast below⟩

namespace Distribution

/-- Whatever is sampled from any source, the support can be listed with the same parameters, and it
lists a value equal to the sample. -/
def ListsSamples {X : Type} (d : Distribution X) : Prop :=
  ∀ params source v, (d.sample params source).1 = .ok v →
    ∃ vs, d.support params = .ok vs ∧ v.isIn vs = true

/-- A side comes up only if its weight is not zero. -/
theorem bernoulli_listsSamples : (bernoulli : Distribution Float).ListsSamples := by
  intro params source v drawn
  cases read : (bernoulliWeight params : Result Float) with
  | error err =>
    simp only [sample, bernoulli, read] at drawn
    cases drawn
  | ok w =>
    refine ⟨sides w, map_eq_ok_iff.2 ⟨w, read, rfl⟩, ?_⟩
    simp only [sample, bernoulli, read] at drawn
    obtain rfl := Except.ok.inj drawn
    obtain ⟨a, weight, -⟩ := @bernoulliWeight_eq_ok Float.log _ _ read
    obtain ⟨u, unit, below⟩ := Double.amount_unit source
    rw [isIn_sides]
    cases side : Scalar.lt (source.unit : Float × Source).1 w with
    | true =>
      have less := (Double.lt_iff Float.log unit weight).1 side
      exact (Double.lt_iff Float.log .zero weight).2 (unit.nonneg.trans_lt less)
    | false =>
      have reached : a ≤ u := by
        apply not_lt.1
        intro less
        exact Bool.noConfusion (side.symm.trans ((Double.lt_iff Float.log unit weight).2 less))
      exact (Double.lt_iff Float.log weight Double.amount_one).2 (reached.trans_lt below)

/-- An index is drawn only if its weight is positive. -/
theorem categorical_listsSamples : (categorical : Distribution Float).ListsSamples := by
  intro params source v drawn
  cases read : (categoricalWeights params : Result (List Float)) with
  | error err =>
    simp only [sample, categorical, read] at drawn
    cases drawn
  | ok ws =>
    refine ⟨positiveFrom 0 ws, map_eq_ok_iff.2 ⟨ws, read, rfl⟩, ?_⟩
    obtain ⟨-, total, accepted⟩ := categoricalWeights_eq_ok_iff.1 read
    obtain ⟨i, w, index, held, positive⟩ := exists_drawn accepted source
    simp only [sample, categorical, read, index] at drawn
    obtain rfl := Except.ok.inj drawn
    refine isIn_positiveFrom_iff.2 ⟨i, w, held, positive, ?_⟩
    rw [Nat.zero_add]
    exact BEq.rfl

/-- An item is listed in the spelling of its first occurrence. -/
theorem uniformDraw_listsSamples {X : Type} [Scalar X] :
    (uniformDraw : Distribution X).ListsSamples := by
  intro params source v drawn
  refine ⟨Value.distinct params, rfl, ?_⟩
  rw [Value.isIn_distinct]
  exact List.any_eq_true.2 ⟨v, mem_of_sample_uniformDraw drawn, BEq.rfl⟩

theorem delta_listsSamples {X : Type} [Scalar X] (v : Value) :
    (delta v : Distribution X).ListsSamples := by
  intro params source u drawn
  obtain rfl := Except.ok.inj drawn
  exact ⟨[v], rfl, by simp⟩

/-- Samples lie in the support. Whatever value a coin flip, a choice by weight, a uniform choice or a
point mass samples, with any parameters and from any source, the support can be listed with these
parameters and lists a value that equals it. -/
theorem choices_list_samples :
    (bernoulli : Distribution Float).ListsSamples ∧
      (categorical : Distribution Float).ListsSamples ∧
      (uniformDraw : Distribution Float).ListsSamples ∧
      ∀ v, (delta v : Distribution Float).ListsSamples :=
  ⟨bernoulli_listsSamples, categorical_listsSamples, uniformDraw_listsSamples, delta_listsSamples⟩

/-- The threshold is zero, and so are the weights at both ends; the index between them is drawn and
listed. -/
theorem choices_list_samples_gaps :
    ((categorical : Distribution Float).sample [.int 0, .float 0.5, .float (-0.0)]
        (.ofWords #[])).1 = .ok (.int 1) ∧
      ∃ vs, (categorical : Distribution Float).support [.int 0, .float 0.5, .float (-0.0)] =
        .ok vs ∧ Value.isIn (.int 1) vs = true := by
  have drawn : ((categorical : Distribution Float).sample [.int 0, .float 0.5, .float (-0.0)]
      (.ofWords #[])).1 = .ok (.int 1) := by rfl
  exact ⟨drawn, choices_list_samples.2.1 _ _ _ drawn⟩

end Distribution

end Posterior
