import Mathlib.Algebra.BigOperators.Group.List.Basic
import Mathlib.Analysis.SpecialFunctions.Log.ENNRealLogExp
import Posterior.Marginal
import Posterior.Proofs.Equality
import Posterior.Proofs.Exact

/-!
# Masses of marginals

In exact arithmetic a marginal says how much mass there is on each value, whatever order its entries
are in. The masses are counted for sets of values, so that one statement covers the mass on a single
value and all of the mass.

## Main definitions

* `mass` — the mass that a list of weighted values puts on a set of values
* `Saturated` — sets that hold all values equal to one of theirs
* `Marginal.weighted` — the entries of a marginal with their masses
* `Marginal.rescaled` — the values with mass, with the masses divided by the total
* `Normalizes` — the distribution proportional to weighted values
* `Agree` — two inferences with the same failure, or with distributions that are alike

## Main results

* `Marginal.mass_addLog` — what is added to a value adds to the mass of the sets that hold it
* `Marginal.exp_logTotal` — the total is the sum of the masses
* `Marginal.mass_rescale` — normalization divides masses by the total
* `Marginal.isIn_keys_rescale`, `Marginal.find?_getD` — what a frozen marginal lists and scores
* `Marginal.normalizes` — a frozen marginal is proportional to its masses
* `Marginal.agree_normalized` — marginals with the same masses are frozen alike
-/

namespace Posterior

open scoped ENNReal

/-- The mass that weighted values put on a set of values. -/
def mass (p : Value → Bool) : List (Value × ℝ≥0∞) → ℝ≥0∞
  | [] => 0
  | w :: ws => (if p w.1 then w.2 else 0) + mass p ws

/-- The masses of all values multiplied by the same. -/
noncomputable def scale (c : ℝ≥0∞) (ws : List (Value × ℝ≥0∞)) : List (Value × ℝ≥0∞) :=
  ws.map fun w => (w.1, c * w.2)

section Mass

variable (p : Value → Bool) (c : ℝ≥0∞) (ws us : List (Value × ℝ≥0∞))

@[simp] theorem mass_nil : mass p [] = 0 := rfl

@[simp] theorem mass_cons (w : Value × ℝ≥0∞) :
    mass p (w :: ws) = (if p w.1 then w.2 else 0) + mass p ws := rfl

@[simp] theorem mass_append : mass p (ws ++ us) = mass p ws + mass p us := by
  induction ws with
  | nil => simp
  | cons w ws ih => simp [ih, add_assoc]

@[simp] theorem mass_scale : mass p (scale c ws) = c * mass p ws := by
  induction ws with
  | nil => simp [scale]
  | cons w ws ih =>
    rw [scale, List.map_cons, mass_cons, mass_cons, mul_add, mul_ite, mul_zero]
    exact congrArg _ ih

theorem mass_flatMap {α : Type} (f : α → List (Value × ℝ≥0∞)) (xs : List α) :
    mass p (xs.flatMap f) = (xs.map fun x => mass p (f x)).sum := by
  induction xs with
  | nil => rfl
  | cons x xs ih => simp [ih]

theorem mass_map {α : Type} (f : α → Value × ℝ≥0∞) (xs : List α) :
    mass p (xs.map f) = (xs.map fun x => if p (f x).1 then (f x).2 else 0).sum := by
  induction xs with
  | nil => rfl
  | cons x xs ih => simp [ih]

variable {p ws}

theorem mass_pos_iff : 0 < mass p ws ↔ ∃ w ∈ ws, p w.1 = true ∧ 0 < w.2 := by
  induction ws with
  | nil => simp
  | cons w ws ih =>
    rw [mass_cons, add_pos_iff, ih, List.exists_mem_cons_iff]
    split <;> simp_all

theorem mass_ne_top (h : ∀ w ∈ ws, w.2 ≠ ⊤) : mass p ws ≠ ⊤ := by
  induction ws with
  | nil => simp
  | cons w ws ih =>
    obtain ⟨first, rest⟩ := List.forall_mem_cons.1 h
    rw [mass_cons]
    refine ENNReal.add_ne_top.2 ⟨?_, ih rest⟩
    split
    · exact first
    · exact ENNReal.zero_ne_top

/-- All of the mass. -/
abbrev totalMass (ws : List (Value × ℝ≥0∞)) : ℝ≥0∞ := mass (fun _ => true) ws

/-- The mass on the values equal to a given one. -/
abbrev massOf (ws : List (Value × ℝ≥0∞)) (v : Value) : ℝ≥0∞ := mass (· == v) ws

theorem totalMass_cons (w : Value × ℝ≥0∞) (ws : List (Value × ℝ≥0∞)) :
    totalMass (w :: ws) = w.2 + totalMass ws := rfl

theorem mass_le_totalMass (p : Value → Bool) (ws : List (Value × ℝ≥0∞)) :
    mass p ws ≤ totalMass ws := by
  induction ws with
  | nil => rfl
  | cons w ws ih =>
    rw [totalMass_cons, mass_cons]
    gcongr
    split
    · rfl
    · exact zero_le

end Mass

/-- A set holds all values equal to one of its own. -/
def Saturated (p : Value → Bool) : Prop := ∀ u v : Value, (u == v) = true → p u = p v

theorem saturated_univ : Saturated fun _ => true := fun _ _ _ => rfl

/-- The values equal to a given one are a saturated set. -/
theorem saturated_beq (v : Value) : Saturated (· == v) := by
  intro u w same
  rw [Bool.eq_iff_iff]
  exact ⟨fun h => BEq.trans (BEq.symm same) h, fun h => BEq.trans same h⟩

namespace Marginal

/-- The entries with their masses. -/
noncomputable def weighted (entries : List (Value × EReal)) : List (Value × ℝ≥0∞) :=
  entries.map fun e => (e.1, e.2.exp)

variable {p : Value → Bool} {entries : List (Value × EReal)}

@[simp] theorem weighted_nil : weighted [] = [] := rfl

@[simp] theorem weighted_cons (e : Value × EReal) :
    weighted (e :: entries) = (e.1, e.2.exp) :: weighted entries := rfl

theorem mass_insert (saturated : Saturated p) (v : Value) (l : EReal) :
    mass p (weighted (insert v l entries)) =
      mass p (weighted entries) + if p v then l.exp else 0 := by
  induction entries with
  | nil => simp [insert, Scalar.exp_logAddExp]
  | cons e entries ih =>
    obtain ⟨u, m⟩ := e
    rw [insert]
    split
    · next same =>
      -- The entry that grows keeps its own key, which is in the set exactly if the value is.
      rw [weighted_cons, weighted_cons, mass_cons, mass_cons, Scalar.exp_logAddExp,
        saturated u v same]
      split
      · exact add_right_comm ..
      · simp
    · rw [weighted_cons, weighted_cons, mass_cons, mass_cons, ih, add_assoc]

/-- What is added to a value adds to the mass of the sets that hold it. -/
theorem mass_addLog (saturated : Saturated p) (m : Marginal EReal) (v : Value) (l : EReal) :
    mass p (weighted (m.addLog v l).entries) =
      mass p (weighted m.entries) + if p v then l.exp else 0 :=
  mass_insert saturated v l

/-- The total of a marginal is the sum of its masses. -/
theorem exp_logTotal (m : Marginal EReal) :
    m.logTotal.exp = mass (fun _ => true) (weighted m.entries) := by
  have masses : mass (fun _ => true) (weighted m.entries) =
      ((m.entries.map Prod.snd).map EReal.exp).sum := by
    rw [weighted, mass_map, List.map_map]
    rfl
  rw [logTotal, ← List.foldl_map, Scalar.exp_foldl_logAddExp, masses]
  simp

theorem rescale_cons (total : EReal) (v : Value) (l : EReal) :
    rescale total ((v, l) :: entries) =
      if l = ⊥ then rescale total entries else (v, l - total) :: rescale total entries := by
  unfold rescale
  rw [List.filter_cons]
  by_cases empty : l = ⊥
  · simp [empty]
  · simp [empty, bot_lt_iff_ne_bot]

/-- Normalization divides masses by the total. What it drops has no mass. -/
theorem mass_rescale (total : EReal) :
    mass p (weighted (rescale total entries)) = mass p (weighted entries) / total.exp := by
  induction entries with
  | nil => simp [rescale]
  | cons e entries ih =>
    obtain ⟨u, l⟩ := e
    rw [rescale_cons, weighted_cons, mass_cons, ENNReal.add_div, ← ih]
    split
    · next empty => simp [empty]
    · rw [weighted_cons, mass_cons, Scalar.exp_sub]
      split <;> simp

/-- What normalization keeps has mass. -/
theorem pos_of_mem_weighted_rescale {total : EReal} (finite : total ≠ ⊤) :
    ∀ w ∈ weighted (rescale total entries), 0 < w.2 := by
  induction entries with
  | nil => simp [rescale]
  | cons e entries ih =>
    obtain ⟨u, l⟩ := e
    rw [rescale_cons]
    split
    · exact ih
    · next mass =>
      rw [weighted_cons, Scalar.exp_sub]
      refine List.forall_mem_cons.2 ⟨?_, ih⟩
      exact ENNReal.div_pos (by simpa using mass) (by simpa using finite)

/-- A normalized marginal lists the values that had mass. -/
theorem isIn_keys_rescale {total : EReal} (finite : total ≠ ⊤) (v : Value) :
    v.isIn ((rescale total entries).map Prod.fst) = true ↔
      0 < mass (· == v) (weighted (rescale total entries)) := by
  rw [mass_pos_iff, Value.isIn, List.any_eq_true]
  constructor
  · rintro ⟨u, hu, same⟩
    obtain ⟨e, he, rfl⟩ := List.mem_map.1 hu
    have listed : (e.1, e.2.exp) ∈ weighted (rescale total entries) := List.mem_map_of_mem he
    exact ⟨_, listed, same, pos_of_mem_weighted_rescale finite _ listed⟩
  · rintro ⟨w, hw, same, -⟩
    obtain ⟨e, he, rfl⟩ := List.mem_map.1 hw
    exact ⟨e.1, List.mem_map_of_mem he, same⟩

/-- The log-mass found for a value is that of all entries for it: there is at most one. -/
theorem find?_getD (distinct : DistinctKeys entries) (v : Value) :
    (find? v entries).getD ⊥ = (mass (· == v) (weighted entries)).log := by
  induction entries with
  | nil => simp [find?]
  | cons e entries ih =>
    obtain ⟨u, l⟩ := e
    obtain ⟨apart, distinct⟩ := List.pairwise_cons.1 distinct
    rw [find?, weighted_cons, mass_cons]
    split
    · next same =>
      -- The keys behind this one differ from it, so none of them is equal to the value.
      have elsewhere : ¬0 < mass (· == v) (weighted entries) := by
        rw [mass_pos_iff]
        rintro ⟨w, hw, found, -⟩
        obtain ⟨e, he, rfl⟩ := List.mem_map.1 hw
        have other := apart e he
        rw [BEq.trans same (BEq.symm found)] at other
        contradiction
      rw [nonpos_iff_eq_zero.1 (not_lt.1 elsewhere), add_zero, EReal.log_exp]
      rfl
    · next other => simpa [other] using ih distinct

end Marginal

/-! ### Normalization -/

namespace Marginal

variable {m n : Marginal EReal}

theorem distinctKeys_rescaled {X : Type} [Scalar X] (m : Marginal X) :
    DistinctKeys (rescale m.logTotal m.entries) := distinctKeys_rescale m.logTotal m.distinct

/-- The values with mass, with the masses divided by the total. -/
def rescaled {X : Type} [Scalar X] (m : Marginal X) : Marginal X :=
  ⟨rescale m.logTotal m.entries, m.distinctKeys_rescaled⟩

theorem rescaled_entries {X : Type} [Scalar X] (m : Marginal X) :
    m.rescaled.entries = rescale m.logTotal m.entries := rfl

theorem normalized_eq_ok_iff :
    m.normalized = .ok n ↔ (m.logTotal ≠ ⊥ ∧ m.logTotal ≠ ⊤) ∧ m.rescaled = n := by
  rw [normalized, ← Scalar.exact_isFinite_iff, rescaled]
  split
  · next finite => simp [finite]
  · next infinite => simp [infinite]

/-- Normalization fails only for want of mass, for which it also takes a mass that is infinite. -/
theorem normalized_eq_error_iff {e : Failure} :
    m.normalized = .error e ↔ (m.logTotal = ⊥ ∨ m.logTotal = ⊤) ∧ e = .zeroMass := by
  have infinite : (m.logTotal = ⊥ ∨ m.logTotal = ⊤) ↔ ¬Scalar.isFinite m.logTotal = true := by
    rw [Scalar.exact_isFinite_iff, not_and_or, not_not, not_not]
  rw [normalized, infinite]
  split
  · next finite => simp [finite]
  · next none => simp [none, eq_comm]

end Marginal

/-! ### The distribution of weighted values -/

/-- The distribution proportional to weighted values: it lists each value with mass once, and scores
a value by the logarithm of its part of the mass, which is minus infinity for a value without any.
Where no value has mass there is no distribution. -/
structure Normalizes (ws : List (Value × ℝ≥0∞)) (result : Result (Distribution EReal)) : Prop where
  zeroMass : result = .error .zeroMass ↔ totalMass ws = 0
  distribution : totalMass ws ≠ 0 → ∃ d vs, result = .ok d ∧ (∀ params, d.support params = .ok vs) ∧
    vs.Pairwise (fun u v => (u == v) = false) ∧ (∀ v, v.isIn vs = true ↔ 0 < massOf ws v) ∧
    ∀ params v, d.score params v = .ok (massOf ws v / totalMass ws).log

/-- The distribution depends on the masses alone. -/
theorem Normalizes.congr {ws us : List (Value × ℝ≥0∞)} {result : Result (Distribution EReal)}
    (h : Normalizes ws result) (same : ∀ p, Saturated p → mass p us = mass p ws) :
    Normalizes us result := by
  have masses := fun v => same _ (saturated_beq v)
  have all := same _ saturated_univ
  refine ⟨by rw [totalMass, all]; exact h.zeroMass, fun some => ?_⟩
  simp only [totalMass, massOf, masses, all] at some ⊢
  exact h.distribution some

/-- The distributions list the same values and score every value alike, whatever the parameters. -/
structure Distribution.Alike (d d' : Distribution EReal) : Prop where
  support : ∃ vs vs', (∀ params, d.support params = .ok vs) ∧
    (∀ params, d'.support params = .ok vs') ∧ ∀ v : Value, v.isIn vs = v.isIn vs'
  score : ∀ params params' v, ∃ l, d.score params v = .ok l ∧ d'.score params' v = .ok l

/-- Two inferences agree: both fail for want of mass, or they give distributions that are alike. -/
def Agree (x y : Result (Distribution EReal)) : Prop :=
  (x = .error .zeroMass ∧ y = .error .zeroMass) ∨ ∃ d d', x = .ok d ∧ y = .ok d' ∧ d.Alike d'

/-- There is only one distribution proportional to the masses. -/
theorem Normalizes.agree {ws : List (Value × ℝ≥0∞)} {x y : Result (Distribution EReal)}
    (hx : Normalizes ws x) (hy : Normalizes ws y) : Agree x y := by
  by_cases empty : totalMass ws = 0
  · exact .inl ⟨hx.zeroMass.2 empty, hy.zeroMass.2 empty⟩
  · obtain ⟨d, vs, rfl, support, -, listed, scored⟩ := hx.distribution empty
    obtain ⟨d', vs', rfl, support', -, listed', scored'⟩ := hy.distribution empty
    refine .inr ⟨d, d', rfl, rfl, ⟨vs, vs', support, support', fun v => ?_⟩,
      fun params params' v => ⟨_, scored params v, scored' params' v⟩⟩
    rw [Bool.eq_iff_iff, listed, listed']

namespace Marginal

variable {m n : Marginal EReal}

/-- A marginal is frozen unless there is no mass, or too much of it to divide by. -/
theorem map_normalized_eq_error_iff : m.normalized.map toDistribution = .error .zeroMass ↔
    totalMass (weighted m.entries) = 0 ∨ totalMass (weighted m.entries) = ⊤ := by
  have failed : m.normalized.map toDistribution = .error .zeroMass ↔
      m.normalized = .error .zeroMass := by
    cases m.normalized <;> simp [Except.map]
  rw [failed, normalized_eq_error_iff, and_iff_left rfl, totalMass, ← exp_logTotal,
    EReal.exp_eq_zero_iff, EReal.exp_eq_top_iff]

/-- A marginal whose masses are finite is frozen to the distribution proportional to them. -/
theorem normalizes (m : Marginal EReal) (finite : totalMass (weighted m.entries) ≠ ⊤) :
    Normalizes (weighted m.entries) (m.normalized.map toDistribution) := by
  refine ⟨by rw [map_normalized_eq_error_iff, or_iff_left finite], fun some => ?_⟩
  have log : m.logTotal.exp = totalMass (weighted m.entries) := exp_logTotal m
  have positive : m.logTotal ≠ ⊥ := by rwa [← log, ne_eq, EReal.exp_eq_zero_iff] at some
  have below : m.logTotal ≠ ⊤ := by rwa [← log, ne_eq, EReal.exp_eq_top_iff] at finite
  rw [normalized_eq_ok_iff.2 ⟨⟨positive, below⟩, rfl⟩]
  refine ⟨_, _, rfl, fun _ => rfl, ?_, fun v => ?_, fun params v => ?_⟩
  · exact List.pairwise_map.2 m.rescaled.distinct
  · rw [keys, rescaled_entries, isIn_keys_rescale below, mass_rescale]
    simp [log, finite, pos_iff_ne_zero]
  · have scored := find?_getD m.rescaled.distinct v
    rw [rescaled_entries, mass_rescale, log] at scored
    exact congrArg Except.ok scored

/-- Only the masses matter for what a marginal is frozen to. -/
theorem agree_normalized (same : ∀ p, Saturated p →
    mass p (weighted m.entries) = mass p (weighted n.entries)) :
    Agree (m.normalized.map toDistribution) (n.normalized.map toDistribution) := by
  have totals : totalMass (weighted m.entries) = totalMass (weighted n.entries) :=
    same _ saturated_univ
  by_cases infinite : totalMass (weighted m.entries) = ⊤
  · exact .inl ⟨map_normalized_eq_error_iff.2 (.inr infinite),
      map_normalized_eq_error_iff.2 (.inr (totals ▸ infinite))⟩
  · exact (m.normalizes infinite).agree ((n.normalizes (totals ▸ infinite)).congr same)

end Marginal

end Posterior
