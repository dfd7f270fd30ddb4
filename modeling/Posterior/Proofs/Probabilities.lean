import Posterior.Proofs.Double.Reading

/-!
# The elementary random choices are normalized

Over exact numbers the probabilities of the listed values add up to one. For a coin these are a
weight and what it leaves of one, for a choice by weight the shares of the positive weights in the
sum of all, and for a uniform choice the share of the items that equal one of them, which is listed
in the place of all. Parameters are accepted by the functions on doubles, which list the same values.

## Main definitions

* `Distribution.Lists` — a distribution lists and scores the values of a law
* `Distribution.coin`, `Distribution.shares`, `Distribution.occurrences` — the laws of the choices

## Main results

* `Value.sum_countP` — the items that equal each of the distinct ones are all items
* `Distribution.choices_normalized` — the choices list their laws
-/

namespace Posterior

open Double (Amount Reading)
open scoped ENNReal

/-! ### Counting items -/

namespace Value

variable {keys vs : List Value} {v : Value}

/-- Each item equals one of the distinct values that cover them. -/
theorem sum_countP (distinct : keys.Pairwise fun u v => (u == v) = false)
    (covered : ∀ v ∈ vs, v.isIn keys = true) :
    (keys.map fun k => vs.countP fun v => v == k).sum = vs.length := by
  induction vs with
  | nil => simp
  | cons v vs ih =>
    obtain ⟨first, others⟩ := List.forall_mem_cons.1 covered
    -- One of the counts is larger by one, for the value that equals the first item.
    have added : (keys.map fun k => if v == k then 1 else 0).sum = 1 := by
      have one := countP_eq_one distinct first
      rw [List.countP_eq_length_filter] at one
      simp [List.sum_map_ite, one]
    simp only [List.countP_cons, List.sum_map_add, List.length_cons]
    rw [ih others, added]

end Value

/-! ### Exact shares -/

namespace Scalar

/-- The logarithm of a share, taken of exact numbers. -/
theorem exact_ln_div {a t : ℝ≥0∞} (some : t ≠ 0) (finite : t ≠ ⊤) :
    (ln ((a : EReal) / (t : EReal)) : EReal) = (a / t).log := by
  lift t to NNReal using finite
  have positive : 0 < (t : ℝ) := by
    rw [NNReal.coe_pos, pos_iff_ne_zero]
    exact_mod_cast some
  rw [exact_ln, EReal.coe_nnreal_eq_coe_real, div_eq_mul_inv, ← EReal.coe_inv,
    EReal.toENNReal_mul (EReal.coe_ennreal_nonneg a), EReal.toENNReal_coe,
    EReal.real_coe_toENNReal, ENNReal.ofReal_inv_of_pos positive, ENNReal.ofReal_coe_nnreal,
    ← div_eq_mul_inv]

end Scalar

namespace Distribution

variable {d : Distribution EReal} {params : List Value} {law : List (Value × ℝ≥0∞)}

/-! ### Laws -/

/-- Values with their probabilities, of which the possible ones are kept. -/
noncomputable def possible (law : List (Value × ℝ≥0∞)) : List (Value × ℝ≥0∞) :=
  open Classical in law.filter fun e => decide (e.2 ≠ 0)

/-- The sides of a coin. -/
noncomputable def coin (w : ℝ≥0∞) : List (Value × ℝ≥0∞) :=
  possible [(.bool true, w), (.bool false, 1 - w)]

/-- The indices of weights, with the shares of these in their sum. -/
noncomputable def shares (ws : List ℝ≥0∞) : List (Value × ℝ≥0∞) :=
  possible (ws.zipIdx.map fun e => (indexValue e.2, e.1 / ws.sum))

/-- The distinct items, with the shares of their occurrences. -/
noncomputable def occurrences (vs : List Value) : List (Value × ℝ≥0∞) :=
  (Value.distinct vs).map fun v => (v, (vs.countP fun u => u == v : ℕ) / (vs.length : ℕ))

/-- The values of a law are listed, each is scored with the logarithm of its probability, no two of
them are equal, and the probabilities add up to one. -/
structure Lists (d : Distribution EReal) (params : List Value) (law : List (Value × ℝ≥0∞)) :
    Prop where
  listing : d.listing params = .ok (law.map fun e => (e.1, .ok e.2.log))
  distinct : (law.map Prod.fst).Pairwise fun u v => (u == v) = false
  total : (law.map Prod.snd).sum = 1

theorem possible_cons (e : Value × ℝ≥0∞) (law : List (Value × ℝ≥0∞)) :
    possible (e :: law) = if e.2 = 0 then possible law else e :: possible law := by
  rw [possible, List.filter_cons]
  split <;> simp_all [possible]

theorem mem_of_mem_possible {e : Value × ℝ≥0∞} (member : e ∈ possible law) : e ∈ law :=
  List.mem_of_mem_filter member

/-- What is not possible does not add anything. -/
theorem sum_possible (law : List (Value × ℝ≥0∞)) :
    ((possible law).map Prod.snd).sum = (law.map Prod.snd).sum := by
  induction law with
  | nil => rfl
  | cons e law ih =>
    rw [possible_cons, List.map_cons, List.sum_cons]
    split
    · next none => rw [ih, none, zero_add]
    · rw [List.map_cons, List.sum_cons, ih]

theorem listing_eq (listed : d.support params = .ok (law.map Prod.fst))
    (scored : ∀ e ∈ law, d.score params e.1 = .ok e.2.log) :
    d.listing params = .ok (law.map fun e => (e.1, .ok e.2.log)) := by
  rw [listing, listed]
  change Except.ok ((law.map Prod.fst).map fun v => (v, d.score params v)) = _
  rw [List.map_map, Except.ok.injEq]
  apply List.map_congr_left
  intro e member
  rw [Function.comp, scored e member]

theorem zero_lt_coe_iff (a : ℝ≥0∞) : Scalar.lt Scalar.zero (a : EReal) = true ↔ a ≠ 0 := by
  rw [Scalar.exact_lt_iff, Scalar.exact_zero, EReal.coe_ennreal_pos, pos_iff_ne_zero]

/-! ### Coin flips -/

/-- The sides that are listed are the possible ones. -/
theorem map_fst_coin (w : ℝ≥0∞) : (coin w).map Prod.fst = sides (w : EReal) := by
  have below : Scalar.lt (w : EReal) Scalar.one = true ↔ 1 - w ≠ 0 := by
    rw [Scalar.exact_lt_iff, Scalar.exact_one, ← EReal.coe_ennreal_one,
      EReal.coe_ennreal_lt_coe_ennreal_iff, ne_eq, tsub_eq_zero_iff_le, not_le]
  rw [coin, possible_cons, possible_cons, sides]
  simp only [zero_lt_coe_iff, below]
  by_cases none : w = 0
  · simp [none, possible]
  · by_cases all : 1 - w = 0 <;> simp [none, all, possible]

theorem lists_coin {w : ℝ≥0∞} (le : w ≤ 1)
    (accepted : bernoulliWeight params = .ok (w : EReal)) :
    (bernoulli : Distribution EReal).Lists params (coin w) where
  listing := by
    apply listing_eq
    · rw [map_fst_coin]
      exact map_eq_ok_iff.2 ⟨w, accepted, rfl⟩
    · intro e member
      refine map_eq_ok_iff.2 ⟨w, accepted, ?_⟩
      rcases List.mem_pair.1 (mem_of_mem_possible member) with rfl | rfl
      · change Scalar.ln (w : EReal) = _
        rw [Scalar.exact_ln, EReal.toENNReal_coe]
      · change Scalar.ln (Scalar.one - (w : EReal)) = _
        rw [Scalar.exact_ln, Scalar.exact_one, EReal.toENNReal_sub (EReal.coe_ennreal_nonneg w),
          EReal.toENNReal_coe, ← EReal.coe_ennreal_one, EReal.toENNReal_coe]
  distinct := by
    rw [map_fst_coin]
    exact pairwise_sides _
  total := by
    rw [coin, sum_possible]
    simp [add_tsub_cancel_of_le le]

/-- A weight that is accepted as a double is one as an exact number, and lists the same sides. -/
theorem coin_of_support {vs : List Value}
    (listed : (bernoulli : Distribution Float).support params = .ok vs) :
    ∃ w : ℝ≥0∞, w ≤ 1 ∧ params.head?.bind Value.asNumber? = some (w : EReal) ∧
      vs = (coin w).map Prod.fst ∧ (bernoulli : Distribution EReal).Lists params (coin w) := by
  obtain ⟨x, accepted, rfl⟩ := map_eq_ok_iff.1 listed
  obtain ⟨read, least, most⟩ := bernoulliWeight_eq_ok_iff.1 accepted
  obtain ⟨p, first, number⟩ := Option.bind_eq_some_iff.1 read
  obtain ⟨v, amount⟩ := @Double.exists_amount_of_le Float.log _ least
  obtain ⟨w, exact, reading⟩ := Double.exists_reading number amount
  have le : (w : EReal) ≤ 1 := by
    apply not_lt.1
    intro above
    have same := (Double.le_iff Float.log reading.amount Double.amount_one).1 most
    exact absurd (reading.side_one.2.2 above) same.not_gt
  have accepted' : bernoulliWeight params = .ok (w : EReal) := by
    rw [bernoulliWeight_eq_ok_iff, first, Scalar.exact_le_iff, Scalar.exact_le_iff,
      Scalar.exact_zero, Scalar.exact_one]
    exact ⟨exact, EReal.coe_ennreal_nonneg w, le⟩
  have le' : w ≤ 1 := by exact_mod_cast le
  refine ⟨w, le', ?_, ?_, lists_coin le' accepted'⟩
  · rw [first]
    exact exact
  · rw [map_fst_coin, sides, sides, reading.zero_lt, reading.lt_one]

/-! ### Choices by weight -/

/-- The weight of an index that can be addressed is the one at its place. -/
theorem weightAt_indexValue {X : Type} [Scalar X] {ws : List X} {w : X} {k : ℕ}
    (held : ws[k]? = some w) (small : k < 2 ^ 63) : weightAt ws (indexValue k) = w := by
  change (if 0 ≤ (Int64.ofNat k).toInt then (ws[(Int64.ofNat k).toInt.toNat]?).getD Scalar.zero
    else Scalar.zero) = w
  rw [Int64.toInt_ofNat_of_lt small, if_pos (Int.natCast_nonneg k), Int.toNat_natCast, held]
  rfl

/-- What is listed are the indices of the weights that have a share. -/
theorem positiveFrom_eq {X : Type} [Scalar X] {xs : List X} {as : List ℝ≥0∞} {t : ℝ≥0∞} (index : ℕ)
    (finite : t ≠ ⊤)
    (same : List.Forall₂ (fun x a => Scalar.lt Scalar.zero x = true ↔ a ≠ 0) xs as) :
    positiveFrom index xs =
      (possible ((as.zipIdx index).map fun e => (indexValue e.2, e.1 / t))).map Prod.fst := by
  induction same generalizing index with
  | nil => rfl
  | @cons x a xs as first _ ih =>
    rw [positiveFrom, List.zipIdx_cons, List.map_cons, possible_cons, ih]
    have share : a / t = 0 ↔ a = 0 := by
      rw [ENNReal.div_eq_zero_iff, or_iff_left finite]
    by_cases none : a = 0
    · rw [if_pos (share.2 none), if_neg (not_not.2 none ∘ first.1)]
    · rw [if_neg (mt share.1 none), if_pos (first.2 none)]
      rfl

/-- The shares of all weights in their sum add up to one, if it is finite and not zero. -/
theorem sum_shares {ws : List ℝ≥0∞} (some : ws.sum ≠ 0) (finite : ws.sum ≠ ⊤) :
    ((shares ws).map Prod.snd).sum = 1 := by
  have parts : (ws.zipIdx.map fun e => (indexValue e.2, e.1 / ws.sum)).map Prod.snd =
      ws.map fun w => w * (ws.sum)⁻¹ := by
    calc _ = (ws.zipIdx.map Prod.fst).map fun w => w * (ws.sum)⁻¹ := by
          rw [List.map_map, List.map_map]
          rfl
      _ = _ := by rw [List.zipIdx_map_fst]
  rw [shares, sum_possible, parts, List.sum_map_mul_right, List.map_id',
    ENNReal.mul_inv_cancel some finite]

theorem lists_shares {ws : List ℝ≥0∞} (addressable : params.length < 2 ^ 63)
    (accepted : categoricalWeights params = .ok (ws.map fun w : ℝ≥0∞ => (w : EReal)))
    (some : ws.sum ≠ 0) (finite : ws.sum ≠ ⊤) :
    (categorical : Distribution EReal).Lists params (shares ws) := by
  have length := length_of_categoricalWeights accepted
  rw [List.length_map] at length
  have values : (shares ws).map Prod.fst =
      positiveFrom 0 (ws.map fun w : ℝ≥0∞ => (w : EReal)) := by
    refine (positiveFrom_eq 0 finite ?_).symm
    rw [List.forall₂_map_left_iff, List.forall₂_same]
    exact fun a _ => zero_lt_coe_iff a
  refine ⟨listing_eq ?_ ?_, ?_, sum_shares some finite⟩
  · rw [values]
    exact map_eq_ok_iff.2 ⟨_, accepted, rfl⟩
  · intro e member
    obtain ⟨⟨w, k⟩, place, rfl⟩ := List.mem_map.1 (mem_of_mem_possible member)
    have held := List.mem_zipIdx_iff_getElem?.1 place
    have inside : k < ws.length := (List.getElem?_eq_some_iff.1 held).1
    have weight : weightAt (ws.map fun w : ℝ≥0∞ => (w : EReal)) (indexValue k) = w := by
      apply weightAt_indexValue _ (by omega)
      rw [List.getElem?_map, held]
      rfl
    refine map_eq_ok_iff.2 ⟨_, accepted, ?_⟩
    rw [weight, Scalar.sum_coe, Scalar.exact_ln_div some finite]
  · rw [values]
    refine pairwise_positiveFrom ?_
    rw [List.length_map]
    omega

theorem sum_ne_top {ws : List ℝ≥0∞} (finite : ∀ w ∈ ws, w ≠ ⊤) : ws.sum ≠ ⊤ := by
  induction ws with
  | nil => exact ENNReal.zero_ne_top
  | cons w ws ih =>
    obtain ⟨first, others⟩ := List.forall_mem_cons.1 finite
    rw [List.sum_cons]
    exact ENNReal.add_ne_top.2 ⟨first, ih others⟩

/-- Weights that are finite and not all zero are accepted as exact numbers. -/
theorem validateWeights_coe {ws : List ℝ≥0∞} {name : String} (finite : ∀ w ∈ ws, w ≠ ⊤)
    (some : ws.sum ≠ 0) :
    ∃ total, validateWeights name (ws.map fun w : ℝ≥0∞ => (w : EReal)) = .ok total := by
  refine ⟨_, validateWeights_eq_ok_iff.2 ⟨?_, ?_, rfl⟩⟩
  · rw [List.forall_mem_map]
    intro w member
    rw [Scalar.exact_isFinite_iff, ← Bool.not_eq_true, Scalar.exact_lt_iff, Scalar.exact_zero]
    exact ⟨⟨EReal.coe_ennreal_ne_bot w, mt EReal.coe_ennreal_eq_top_iff.1 (finite w member)⟩,
      (EReal.coe_ennreal_nonneg w).not_gt⟩
  · rw [← Bool.not_eq_true, Scalar.exact_le_iff, Scalar.sum_coe, Scalar.exact_zero, not_le]
    exact EReal.coe_ennreal_pos.2 (pos_iff_ne_zero.2 some)

/-- Weights that are accepted as doubles are accepted as exact numbers. -/
theorem exists_exact_weights {xs : List Float} (accepted : categoricalWeights params = .ok xs) :
    ∃ ws : List ℝ≥0∞,
      List.Forall₂ (fun v (w : ℝ≥0∞) => v.asNumber? = some (w : EReal)) params ws ∧
      List.Forall₂ Reading xs ws ∧ ws.sum ≠ 0 ∧ ws.sum ≠ ⊤ ∧
      categoricalWeights params = .ok (ws.map fun w : ℝ≥0∞ => (w : EReal)) := by
  obtain ⟨read, total, valid⟩ := categoricalWeights_eq_ok_iff.1 accepted
  obtain ⟨t, -, -, weights⟩ := @Double.weights_of_validate Float.log _ _ _ valid
  obtain ⟨x, member, positive⟩ := @Double.exists_positive Float.log _ _ _ valid
  have amounts : ∀ x ∈ xs, ∃ v, Amount x v ∧ v ≠ ⊤ := by
    intro x hx
    obtain ⟨v, amount, finite, -⟩ := weights x hx
    exact ⟨v, amount, finite⟩
  obtain ⟨ws, exact, readings⟩ := Double.exists_readings (numbers_eq_ok_iff.1 read)
    fun x hx => (amounts x hx).imp fun v h => h.1
  have finite : ∀ w ∈ ws, w ≠ ⊤ :=
    (Reading.forall_iff readings fun _ _ reading => reading.finite_iff).1 amounts
  have some : ws.sum ≠ 0 := by
    intro none
    have zero : ∀ w ∈ ws, w = 0 := List.sum_eq_zero_iff.1 none
    -- Then no double would be positive either.
    have nothing := (Reading.forall_iff (p := fun x => ¬ Scalar.lt Scalar.zero x = true) readings
      fun x w reading => by rw [reading.zero_lt, zero_lt_coe_iff, not_not]).2 zero
    exact nothing x member positive
  refine ⟨ws, exact, readings, some, sum_ne_top finite, ?_⟩
  rw [categoricalWeights_eq_ok_iff, numbers_eq_ok_iff, List.forall₂_map_right_iff]
  exact ⟨exact, validateWeights_coe finite some⟩

/-- Weights that are accepted as doubles have shares as exact numbers, and the same ones are listed. -/
theorem shares_of_support {vs : List Value} (addressable : params.length < 2 ^ 63)
    (listed : (categorical : Distribution Float).support params = .ok vs) :
    ∃ ws : List ℝ≥0∞,
      List.Forall₂ (fun v (w : ℝ≥0∞) => v.asNumber? = some (w : EReal)) params ws ∧
      vs = (shares ws).map Prod.fst ∧ (categorical : Distribution EReal).Lists params (shares ws) := by
  obtain ⟨xs, accepted, rfl⟩ := map_eq_ok_iff.1 listed
  obtain ⟨ws, exact, readings, some, finite, accepted'⟩ := exists_exact_weights accepted
  refine ⟨ws, exact, ?_, lists_shares addressable accepted' some finite⟩
  apply positiveFrom_eq 0 finite
  exact readings.imp fun x w reading => by rw [reading.zero_lt, zero_lt_coe_iff]

/-! ### Uniform choices -/

theorem map_fst_occurrences (vs : List Value) :
    (occurrences vs).map Prod.fst = Value.distinct vs := by
  rw [occurrences, List.map_map]
  exact List.map_id _

theorem length_ne_zero {vs : List Value} (some : vs ≠ []) : (vs.length : ℝ≥0∞) ≠ 0 :=
  Nat.cast_ne_zero.2 (mt List.length_eq_zero_iff.1 some)

/-- The occurrences of all distinct items are all items. -/
theorem sum_occurrences {vs : List Value} (some : vs ≠ []) :
    ((occurrences vs).map Prod.snd).sum = 1 := by
  have covered : ∀ v ∈ vs, v.isIn (Value.distinct vs) = true := by
    intro v member
    rw [Value.isIn_distinct]
    exact List.any_eq_true.2 ⟨v, member, BEq.rfl⟩
  have length := length_ne_zero some
  calc ((occurrences vs).map Prod.snd).sum
    _ = ((Value.distinct vs).map fun v =>
          ((vs.countP fun u => u == v : ℕ) : ℝ≥0∞) * (vs.length : ℝ≥0∞)⁻¹).sum := by
      rw [occurrences, List.map_map]
      rfl
    _ = (((Value.distinct vs).map fun v => vs.countP fun u => u == v).sum : ℕ) *
          (vs.length : ℝ≥0∞)⁻¹ := by
      rw [List.sum_map_mul_right, Nat.cast_list_sum, List.map_map]
      rfl
    _ = 1 := by
      rw [Value.sum_countP (Value.pairwise_distinct vs) covered]
      exact ENNReal.mul_inv_cancel length (ENNReal.natCast_ne_top _)

theorem lists_occurrences (some : params ≠ []) :
    (uniformDraw : Distribution EReal).Lists params (occurrences params) where
  listing := by
    apply listing_eq
    · rw [map_fst_occurrences]
      rfl
    · intro e member
      obtain ⟨v, -, rfl⟩ := List.mem_map.1 member
      have nonempty : params.isEmpty = false := by simpa using some
      simp only [score, uniformDraw, nonempty, Bool.false_eq_true, if_false]
      rw [← List.countP_eq_length_filter,
        ← Scalar.exact_ln_div (length_ne_zero some) (ENNReal.natCast_ne_top _),
        Scalar.coe_natCast, Scalar.coe_natCast]
      rfl
  distinct := by
    rw [map_fst_occurrences]
    exact Value.pairwise_distinct params
  total := sum_occurrences some

/-- The elementary random choices are normalized. Whatever parameters a coin flip or a choice by
weight accepts, as doubles, and whatever items a uniform choice has, the values that it lists are
different, and the exact probabilities whose logarithms are their scores add up to one: a weight and
what it leaves of one, the shares of the positive weights, the shares of the occurrences. Weights
are addressed by integers of a machine word, and there are never more of them in memory. -/
theorem choices_normalized (params : List Value) :
    (∀ vs, (bernoulli : Distribution Float).support params = .ok vs →
      ∃ w : ℝ≥0∞, w ≤ 1 ∧ params.head?.bind Value.asNumber? = some (w : EReal) ∧
        vs = (coin w).map Prod.fst ∧ (bernoulli : Distribution EReal).Lists params (coin w)) ∧
    (∀ vs, params.length < 2 ^ 63 → (categorical : Distribution Float).support params = .ok vs →
      ∃ ws : List ℝ≥0∞,
        List.Forall₂ (fun v (w : ℝ≥0∞) => v.asNumber? = some (w : EReal)) params ws ∧
        vs = (shares ws).map Prod.fst ∧
        (categorical : Distribution EReal).Lists params (shares ws)) ∧
    (∀ vs, params ≠ [] → (uniformDraw : Distribution Float).support params = .ok vs →
      vs = (occurrences params).map Prod.fst ∧
        (uniformDraw : Distribution EReal).Lists params (occurrences params)) := by
  refine ⟨fun _ => coin_of_support, fun _ => shares_of_support, ?_⟩
  intro vs some listed
  obtain rfl : Value.distinct params = vs := Except.ok.inj listed
  exact ⟨(map_fst_occurrences params).symm, lists_occurrences some⟩

/-- Four weights, of which two are equal and one is zero. -/
def fourWeights : List Value := [.float 0.5, .int 3, .float 0, .int 3]

/-- Taken for a coin, for weights or for items, they have two sides, three indices that are possible
and three distinct values. -/
theorem choices_normalized_fourWeights :
    (bernoulli : Distribution Float).support fourWeights = .ok [.bool true, .bool false] ∧
      fourWeights.length < 2 ^ 63 ∧
      (categorical : Distribution Float).support fourWeights = .ok [.int 0, .int 1, .int 3] ∧
      fourWeights ≠ [] ∧
      (uniformDraw : Distribution Float).support fourWeights =
        .ok [.float 0.5, .int 3, .float 0] ∧
      (∃ w, (bernoulli : Distribution EReal).Lists fourWeights (coin w)) ∧
      (∃ ws, (categorical : Distribution EReal).Lists fourWeights (shares ws)) ∧
      (uniformDraw : Distribution EReal).Lists fourWeights (occurrences fourWeights) := by
  have sides : (bernoulli : Distribution Float).support fourWeights =
      .ok [.bool true, .bool false] := rfl
  have small : fourWeights.length < 2 ^ 63 := by decide
  have indices : (categorical : Distribution Float).support fourWeights =
      .ok [.int 0, .int 1, .int 3] := rfl
  have some : fourWeights ≠ [] := List.cons_ne_nil _ _
  have items : (uniformDraw : Distribution Float).support fourWeights =
      .ok [.float 0.5, .int 3, .float 0] := rfl
  obtain ⟨first, second, third⟩ := choices_normalized fourWeights
  obtain ⟨w, -, -, -, flipped⟩ := first _ sides
  obtain ⟨ws, -, -, chosen⟩ := second _ small indices
  exact ⟨sides, small, indices, some, items, ⟨w, flipped⟩, ⟨ws, chosen⟩, (third _ some items).2⟩

end Distribution

end Posterior
