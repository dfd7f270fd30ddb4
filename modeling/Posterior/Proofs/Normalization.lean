import Mathlib.Analysis.SpecialFunctions.Log.ENNRealLogExp
import Posterior.Proofs.Deposits
import Posterior.Proofs.Mass
import Posterior.Proofs.Selection

/-!
# Normalized and frozen marginals

In exact arithmetic normalization keeps the values with mass and divides their masses by the total,
so that they add up to one. The distribution that a normalized marginal is frozen to refers to the
same entries with all of its functions: it lists them, scores them by their log-masses, and cuts the
unit interval into intervals as long as their masses.

## Main definitions

* `Marginal.NormalizesTo` — what normalization makes of a marginal
* `Marginal.FreezesTo` — what freezing makes of a marginal
* `Deposit.Sensible` — finite masses, and logarithms of finite masses

## Main results

* `Marginal.normalized_idem` — normalization does nothing the second time
* `Marginal.pick?_eq_some_iff` — the thresholds that pick a value
* `Marginal.normalized_freezes` — normalizing and freezing what deposits build
-/

namespace Posterior

open scoped ENNReal

/-- What a source gives lies in the unit interval, one excluded. -/
theorem Source.unit_mem (source : Source) :
    0 ≤ (source.unit : EReal × Source).1 ∧ (source.unit : EReal × Source).1 < 1 := by
  have bound : source.next64.1.toNat / 2048 < unitSteps :=
    Nat.div_lt_of_lt_mul source.next64.1.toNat_lt
  have steps : (0 : ℝ) < unitSteps := Nat.cast_pos.2 (by decide)
  have exact : (source.unit : EReal × Source).1 =
      ((((source.next64.1.toNat / 2048 : ℕ) : ℝ) / unitSteps : ℝ) : EReal) := by
    rw [EReal.coe_div]
    rfl
  rw [exact]
  constructor
  · exact EReal.coe_nonneg.2 (by positivity)
  · rw [← EReal.coe_one, EReal.coe_lt_coe_iff, div_lt_one steps, Nat.cast_lt]
    exact bound

namespace Marginal

variable {m n : Marginal EReal} {entries : List (Value × EReal)}

theorem map_masses {X : Type} [Scalar X] (m : Marginal X) :
    m.masses.map Prod.snd = m.entries.map fun e => Scalar.exp e.2 := by
  rw [masses, List.map_map]
  rfl

/-- The masses add up to the total mass. -/
theorem sum_masses (m : Marginal EReal) :
    (m.masses.map Prod.snd).sum = (totalMass (weighted m.entries) : EReal) := by
  rw [map_masses]
  induction m.entries with
  | nil => rfl
  | cons e entries ih =>
    rw [List.map_cons, List.sum_cons, ih, weighted_cons, totalMass_cons, EReal.coe_ennreal_add]
    rfl

theorem masses_nonneg (m : Marginal EReal) : ∀ w ∈ m.masses.map Prod.snd, 0 ≤ w := by
  rw [map_masses]
  intro w hw
  obtain ⟨e, -, rfl⟩ := List.mem_map.1 hw
  exact EReal.coe_ennreal_nonneg _

/-! ### Normalization -/

/-- The total is zero exactly if every mass is. -/
theorem logTotal_eq_bot_iff : m.logTotal = ⊥ ↔ ∀ w ∈ m.masses, w.2 = 0 := by
  rw [← EReal.exp_eq_zero_iff, exp_logTotal, ← not_iff_not, ← ne_eq, ← pos_iff_ne_zero, mass_pos_iff]
  simp [weighted, masses, Scalar.exact_exp, bot_lt_iff_ne_bot]

/-- Finite masses have a finite total. -/
theorem logTotal_ne_top (finite : ∀ e ∈ m.entries, e.2 ≠ ⊤) : m.logTotal ≠ ⊤ := by
  rw [ne_eq, ← EReal.exp_eq_top_iff, exp_logTotal]
  refine mass_ne_top fun w hw => ?_
  obtain ⟨e, he, rfl⟩ := List.mem_map.1 hw
  exact mt EReal.exp_eq_top_iff.1 (finite e he)

theorem ne_bot_of_mem_rescale {total : EReal} (finite : total ≠ ⊤) :
    ∀ e ∈ rescale total entries, e.2 ≠ ⊥ := by
  intro e he
  have listed : (e.1, e.2.exp) ∈ weighted (rescale total entries) := List.mem_map_of_mem he
  have positive := pos_of_mem_weighted_rescale finite _ listed
  simpa [bot_lt_iff_ne_bot] using positive

/-- Dividing by one changes nothing if all values have mass. -/
theorem rescale_zero (positive : ∀ e ∈ entries, e.2 ≠ ⊥) : rescale 0 entries = entries := by
  induction entries with
  | nil => rfl
  | cons e entries ih =>
    obtain ⟨first, others⟩ := List.forall_mem_cons.1 positive
    rw [rescale_cons, if_neg first, sub_zero, ih others]

section Rescaled

variable (positive : m.logTotal ≠ ⊥) (finite : m.logTotal ≠ ⊤)

include positive finite

/-- The rescaled masses add up to one. -/
theorem totalMass_rescaled : totalMass (weighted m.rescaled.entries) = 1 := by
  rw [rescaled, totalMass, mass_rescale, ← exp_logTotal]
  exact ENNReal.div_self (mt EReal.exp_eq_zero_iff.1 positive) (mt EReal.exp_eq_top_iff.1 finite)

theorem logTotal_rescaled : m.rescaled.logTotal = 0 := by
  apply EReal.exp_strictMono.injective
  rw [exp_logTotal, EReal.exp_zero]
  exact totalMass_rescaled positive finite

theorem normalized_rescaled : m.rescaled.normalized = .ok m.rescaled := by
  have total := logTotal_rescaled positive finite
  refine normalized_eq_ok_iff.2 ⟨by simp [total], ?_⟩
  -- The entries are the same, and what else a marginal has is a proof.
  rw [rescaled.eq_def m.rescaled, mk.injEq, total]
  exact rescale_zero (ne_bot_of_mem_rescale finite)

end Rescaled

/-- Normalization does nothing the second time. -/
theorem normalized_idem (h : m.normalized = .ok n) : n.normalized = .ok n := by
  obtain ⟨⟨positive, finite⟩, rfl⟩ := normalized_eq_ok_iff.1 h
  exact normalized_rescaled positive finite

/-- Normalization keeps the values with mass, in their order. -/
theorem keys_rescaled (m : Marginal EReal) :
    m.rescaled.keys = (m.masses.filter fun w => Scalar.lt Scalar.zero w.2).map Prod.fst := by
  have positive : ∀ l : EReal,
      Scalar.lt Scalar.negInf l = Scalar.lt Scalar.zero (Scalar.exp l) := by
    intro l
    rw [Bool.eq_iff_iff]
    simp [Scalar.exact_exp]
  rw [keys, rescaled_entries, rescale, masses, List.filter_map, List.map_map, List.map_map]
  simp only [positive]
  rfl

/-- What is found for a value after normalization is what was found before, divided by the total. -/
theorem find?_rescale {total l : EReal} {v : Value} (found : find? v entries = some l)
    (positive : l ≠ ⊥) : find? v (rescale total entries) = some (l - total) := by
  induction entries with
  | nil => cases found
  | cons e entries ih =>
    obtain ⟨u, k⟩ := e
    rw [find?] at found
    rw [rescale_cons]
    split at found
    · next same =>
      obtain rfl := Option.some.inj found
      rw [if_neg positive, find?, if_pos same]
    · next other =>
      split
      · exact ih found
      · rw [find?, if_neg other, ih found]

theorem mem_of_find? {X : Type} {v : Value} {l : X} {entries : List (Value × X)}
    (found : find? v entries = some l) : ∃ e ∈ entries, (e.1 == v) = true ∧ e.2 = l := by
  induction entries with
  | nil => cases found
  | cons e entries ih =>
    obtain ⟨u, k⟩ := e
    rw [find?] at found
    split at found
    · next same => exact ⟨(u, k), List.mem_cons_self, same, Option.some.inj found⟩
    · obtain ⟨e, he, h⟩ := ih found
      exact ⟨e, List.mem_cons_of_mem _ he, h⟩

/-- A value with mass has the logarithm of a positive number, before normalization and after. -/
theorem mass?_rescaled (finite : ∀ e ∈ m.entries, e.2 ≠ ⊤) {t : ℝ} (total : m.logTotal = t)
    {v : Value} {a : EReal} (found : m.mass? v = some a) (positive : 0 < a) :
    ∃ l : ℝ, a = (Real.exp l : ℝ) ∧ m.rescaled.mass? v = some ((Real.exp l / Real.exp t : ℝ) : EReal) := by
  obtain ⟨l, held, rfl⟩ := Option.map_eq_some_iff.1 found
  obtain ⟨e, he, -, rfl⟩ := mem_of_find? held
  have some : e.2 ≠ ⊥ := by
    rw [Scalar.exact_exp] at positive
    simpa [bot_lt_iff_ne_bot] using positive
  obtain ⟨l, rest⟩ : ∃ l : ℝ, (l : EReal) = e.2 :=
    ⟨e.2.toReal, EReal.coe_toReal (finite e he) some⟩
  rw [mass?, logMass?, rescaled_entries, find?_rescale held some, total, ← rest, ← EReal.coe_sub]
  refine ⟨l, Scalar.exact_exp_coe l, ?_⟩
  rw [Option.map_some, Scalar.exact_exp_coe, Real.exp_sub]

/-! ### The intervals of the values -/

section Pick

variable {x a : EReal} {v : Value} {i : Nat}

theorem map_fst_masses {X : Type} [Scalar X] (m : Marginal X) : m.masses.map Prod.fst = m.keys := by
  rw [masses, List.map_map]
  rfl

theorem nodup_keys {X : Type} (m : Marginal X) : m.keys.Nodup :=
  m.pairwise_keys.imp fun {u v} apart same => by
    rw [same, BEq.rfl] at apart
    exact Bool.false_ne_true apart.symm

theorem pick?_of_selectIndex {X : Type} [Scalar X] {n : Marginal X} {x a : X}
    (picked : selectIndex (n.masses.map Prod.snd) x = some i) (entry : n.masses[i]? = some (v, a)) :
    n.pick? x = some v := by
  rw [pick?, picked]
  change n.keys[i]? = some v
  rw [← map_fst_masses, List.getElem?_map, entry]
  rfl

variable (whole : totalMass (weighted n.entries) = 1) (reached : 0 ≤ x) (below : x < 1)

include whole reached below

/-- Every threshold in the unit interval picks a value. -/
theorem exists_pick? : ∃ v ∈ n.keys, n.pick? x = some v := by
  have inside : x < (n.masses.map Prod.snd).sum := by rw [sum_masses, whole]; simpa using below
  obtain ⟨i, least, picked, -⟩ := exists_selectIndex reached inside
  rw [List.length_map] at least
  refine ⟨n.masses[i].1, ?_, pick?_of_selectIndex picked (List.getElem?_eq_getElem least)⟩
  rw [← map_fst_masses]
  exact List.mem_map_of_mem (List.getElem_mem least)

/-- The thresholds that pick a value are those in its interval: it is as long as the mass of the
value, and starts at the sum of the masses before. -/
theorem pick?_eq_some_iff (entry : n.masses[i]? = some (v, a)) :
    n.pick? x = some v ↔
      ((n.masses.take i).map Prod.snd).sum ≤ x ∧ x < ((n.masses.take i).map Prod.snd).sum + a := by
  have inside : x < (n.masses.map Prod.snd).sum := by rw [sum_masses, whole]; simpa using below
  have interval := selectIndex_eq_some_iff n.masses_nonneg reached inside (i := i)
  have least : i < n.masses.length := (List.getElem?_eq_some_iff.1 entry).1
  have next : ((n.masses.map Prod.snd).take (i + 1)).sum =
      ((n.masses.take i).map Prod.snd).sum + a := by
    rw [← List.map_take, List.take_add_one, entry, List.map_append, List.sum_append]
    simp
  rw [next, ← List.map_take, List.length_map] at interval
  constructor
  · intro picked
    obtain ⟨j, small, found, -⟩ := exists_selectIndex reached inside
    rw [List.length_map] at small
    -- The value is that of one entry only, so the index found is that of the entry.
    have same : n.keys[i]? = n.keys[j]? := by
      have value := pick?_of_selectIndex found (List.getElem?_eq_getElem small)
      rw [picked] at value
      rw [← map_fst_masses, List.getElem?_map, List.getElem?_map, entry,
        List.getElem?_eq_getElem small]
      exact value
    have bound : i < n.keys.length := by rwa [← map_fst_masses, List.length_map]
    obtain rfl := (List.getElem?_inj bound n.nodup_keys).1 same
    exact (interval.1 found).2
  · intro held
    exact pick?_of_selectIndex (interval.2 ⟨least, held⟩) entry

end Pick

/-! ### Normalizing and freezing -/

/-- Normalization keeps the values with mass and no others, in their order; the masses of any two of
them keep their ratio, they add up to one, and normalizing again changes nothing. -/
structure NormalizesTo (m n : Marginal EReal) : Prop where
  keys : n.keys = (m.masses.filter fun w => Scalar.lt Scalar.zero w.2).map Prod.fst
  ratio : ∀ u v a b, m.mass? u = some a → m.mass? v = some b → 0 < a → 0 < b →
    ∃ a' b', n.mass? u = some a' ∧ n.mass? v = some b' ∧ a' / b' = a / b
  total : n.total = 1
  idempotent : n.normalized = .ok n

/-- The distribution lists the values of the marginal, each of them once; it gives a log-probability
to every value, never above that of certainty, and above that of impossibility exactly to those
listed; every threshold in the unit interval picks one of them, by the interval as long as its mass
that starts at the sum of the masses before; and what is sampled is what such a threshold picks. -/
structure FreezesTo (n : Marginal EReal) (d : Distribution EReal) : Prop where
  support : ∀ params, d.support params = .ok n.keys
  once : n.keys.Pairwise fun u v => (u == v) = false
  score : ∀ params v, ∃ l, d.score params v = .ok l ∧ (⊥ < l ↔ v.isIn n.keys = true) ∧ l ≤ 0
  picks : ∀ x : EReal, 0 ≤ x → x < 1 → ∃ v ∈ n.keys, n.pick? x = some v
  interval : ∀ (x : EReal) i v a, 0 ≤ x → x < 1 → n.masses[i]? = some (v, a) →
    (n.pick? x = some v ↔
      ((n.masses.take i).map Prod.snd).sum ≤ x ∧ x < ((n.masses.take i).map Prod.snd).sum + a)
  sample : ∀ params source, ∃ x after v, (source.unit : EReal × Source) = (x, after) ∧ 0 ≤ x ∧
    x < 1 ∧ n.pick? x = some v ∧ d.sample params source = (.ok v, after)

theorem sample_toDistribution {X : Type} [Scalar X] {n : Marginal X} {source : Source} {v : Value}
    (params : List Value) (picked : n.pick? (source.unit : X × Source).1 = some v) :
    n.toDistribution.sample params source = (.ok v, (source.unit : X × Source).2) := by
  unfold Distribution.sample toDistribution
  simp only [picked]

/-- A marginal with finite masses, not all of them zero, is normalized to its rescaled values. -/
theorem normalizesTo_rescaled (positive : m.logTotal ≠ ⊥) (finite : ∀ e ∈ m.entries, e.2 ≠ ⊤) :
    m.NormalizesTo m.rescaled := by
  have below : m.logTotal ≠ ⊤ := logTotal_ne_top finite
  refine ⟨keys_rescaled m, fun u v a b found_u found_v ha hb => ?_, ?_,
    normalized_rescaled positive below⟩
  · have total : m.logTotal = (m.logTotal.toReal : EReal) := (EReal.coe_toReal below positive).symm
    obtain ⟨k, rfl, kept_u⟩ := mass?_rescaled finite total found_u ha
    obtain ⟨l, rfl, kept_v⟩ := mass?_rescaled finite total found_v hb
    refine ⟨_, _, kept_u, kept_v, ?_⟩
    rw [← EReal.coe_div, ← EReal.coe_div, div_div_div_cancel_right₀ (Real.exp_pos _).ne']
  · rw [Marginal.total, logTotal_rescaled positive below, Scalar.exact_exp, EReal.exp_zero]
    rfl

theorem freezesTo_toDistribution (positive : m.logTotal ≠ ⊥) (below : m.logTotal ≠ ⊤) :
    m.rescaled.FreezesTo m.rescaled.toDistribution := by
  have whole := totalMass_rescaled positive below
  have score : ∀ v, (m.rescaled.logMass? v).getD Scalar.negInf =
      (mass (· == v) (weighted m.rescaled.entries)).log := find?_getD m.rescaled.distinct
  refine ⟨fun _ => rfl, m.rescaled.pairwise_keys, fun _ v => ⟨_, rfl, ?_, ?_⟩,
    fun x reached under => exists_pick? whole reached under,
    fun x i v a reached under entry => pick?_eq_some_iff whole reached under entry, ?_⟩
  -- What is listed, scored and sampled is read off the same entries, whose masses add up to one.
  · rw [score, ENNReal.bot_lt_log_iff]
    exact (isIn_keys_rescale below v).symm
  · rw [score, ENNReal.log_le_zero_iff, ← whole]
    exact mass_le_totalMass _ _
  · intro params source
    obtain ⟨reached, under⟩ := source.unit_mem
    obtain ⟨v, -, picked⟩ := exists_pick? whole reached under
    exact ⟨_, _, v, rfl, reached, under, picked, sample_toDistribution params picked⟩

end Marginal

/-! ### Marginals that deposits build -/

/-- A finite mass, which is not negative, or the logarithm of one. -/
def Deposit.Sensible : Deposit EReal → Prop
  | mass _ x => 0 ≤ x ∧ x ≠ ⊤
  | logMass _ l => l ≠ ⊤

theorem Deposit.log_ne_top {d : Deposit EReal} (sensible : d.Sensible) : d.log ≠ ⊤ := by
  cases d with
  | mass v x =>
    change x.toENNReal.log ≠ ⊤
    rw [ne_eq, ENNReal.log_eq_top_iff, EReal.toENNReal_eq_top_iff]
    exact sensible.2
  | logMass v l => exact sensible

namespace Marginal

/-- Adding finite masses gives finite masses. -/
theorem ne_top_of_mem_ofDeposits {ds : List (Deposit EReal)} (sensible : ∀ d ∈ ds, d.Sensible) :
    ∀ e ∈ (ofDeposits ds).entries, e.2 ≠ ⊤ := by
  rw [entries_ofDeposits, List.forall_mem_map]
  intro v _
  refine Scalar.foldl_logAddExp_ne_top bot_ne_top fun l hl => ?_
  obtain ⟨d, hd, rfl⟩ := List.mem_map.1 hl
  exact Deposit.log_ne_top (sensible d (List.mem_of_mem_filter hd))

/-- Normalizing and freezing what deposits of finite masses build. Normalization fails, for want of
mass, exactly if every mass is zero. Otherwise it keeps the values with mass, in order and with the
ratios of their masses, so that the masses add up to one, and it changes nothing the second time. The
frozen distribution lists these values, scores no others above impossibility, and samples each of
them by an interval as long as its mass. -/
theorem normalized_freezes {ds : List (Deposit EReal)} (sensible : ∀ d ∈ ds, d.Sensible) :
    ((ofDeposits ds).normalized = .error .zeroMass ↔ ∀ w ∈ (ofDeposits ds).masses, w.2 = 0) ∧
    ((∃ w ∈ (ofDeposits ds).masses, w.2 ≠ 0) → ∃ n, (ofDeposits ds).normalized = .ok n ∧
      (ofDeposits ds).NormalizesTo n ∧ n.FreezesTo n.toDistribution) := by
  have finite := ne_top_of_mem_ofDeposits sensible
  have below := logTotal_ne_top finite
  constructor
  · rw [normalized_eq_error_iff, ← logTotal_eq_bot_iff]
    simp [below]
  · rintro ⟨w, hw, some⟩
    have positive : (ofDeposits ds).logTotal ≠ ⊥ :=
      fun empty => some (logTotal_eq_bot_iff.1 empty w hw)
    exact ⟨_, normalized_eq_ok_iff.2 ⟨⟨positive, below⟩, rfl⟩, normalizesTo_rescaled positive finite,
      freezesTo_toDistribution positive below⟩

end Marginal

/-- Two values with the same mass, met after one without any. -/
noncomputable def Deposit.masslessFirst : List (Deposit EReal) :=
  [.mass .unit 0, .logMass (.bool true) 0, .mass (.bool false) 1]

namespace Marginal

theorem masses_masslessFirst : (ofDeposits Deposit.masslessFirst).masses =
    [(.unit, 0), (.bool true, 1), (.bool false, 1)] := by
  have values : Value.distinct (Deposit.masslessFirst.map Deposit.value) =
      [.unit, .bool true, .bool false] := rfl
  have gathered : ∀ v d, Deposit.own v Deposit.masslessFirst = [Deposit.log d] →
      Deposit.gathered v Deposit.masslessFirst = d.log := by
    intro v d own
    rw [Deposit.gathered, own, List.foldl_cons, List.foldl_nil]
    simp [Scalar.logAddExp]
  have unit := gathered .unit (.mass .unit 0) rfl
  have yes := gathered (.bool true) (.logMass (.bool true) 0) rfl
  have no := gathered (.bool false) (.mass (.bool false) 1) rfl
  have one : (1 : EReal).toENNReal = 1 := by rw [← EReal.coe_ennreal_one, EReal.toENNReal_coe]
  rw [masses, entries_ofDeposits, values]
  simp only [List.map_cons, List.map_nil, unit, yes, no, Deposit.log, Scalar.exact_exp,
    Scalar.exact_ln, EReal.exp_zero, ENNReal.exp_log, EReal.toENNReal_zero, one]
  rfl

/-- The value that was met first has no mass: normalization drops it, and the threshold zero picks one
of the others. -/
theorem normalized_freezes_massless :
    ∃ n, (ofDeposits Deposit.masslessFirst).normalized = .ok n ∧
      n.keys = [.bool true, .bool false] ∧ n.total = 1 ∧
      ∃ v ∈ [Value.bool true, .bool false], n.pick? 0 = some v := by
  have sensible : ∀ d ∈ Deposit.masslessFirst, d.Sensible := by
    have finite : (1 : EReal) ≠ ⊤ := EReal.coe_ne_top 1
    simp [Deposit.masslessFirst, Deposit.Sensible, finite]
  obtain ⟨-, normal⟩ := normalized_freezes sensible
  rw [masses_masslessFirst] at normal
  obtain ⟨n, normalized, normalizes, freezes⟩ := normal ⟨(.bool true, 1), by simp, one_ne_zero⟩
  have keys : n.keys = [.bool true, .bool false] := by
    rw [normalizes.keys, masses_masslessFirst]
    simp
  exact ⟨n, normalized, keys, normalizes.total, keys ▸ freezes.picks 0 le_rfl zero_lt_one⟩

end Marginal

end Posterior
