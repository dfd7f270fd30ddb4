import Mathlib.Analysis.SpecialFunctions.Log.ENNRealLogExp
import Posterior.Distribution.Standard
import Posterior.Proofs.Exploration
import Posterior.Proofs.Mass

/-!
# Enumeration computes the exact posterior

The mass of a path is the product of the probabilities of its choices and of the factors of its
constraints. In exact arithmetic the search puts on each value the masses of the paths that exit with
it, whatever order it explores them in, and the distribution that it returns is proportional to them.

The search carries the log-mass of the path that it is on. What it adds to the marginal below a node
is therefore the masses of the paths from the node on, multiplied by the mass of the path to the
node; this is the invariant.

## Main definitions

* `Tree.paths` — the paths of a tree, as the values they exit with and their masses
* `Tree.Unfailing`, `Tree.Sound` — trees without failing effects, and without infinite masses
* `Tree.Dead` — trees without paths that have mass
* `Tree.Rearranged` — trees that differ in the order of supports and in dead parts

## Main results

* `Tree.adds_explore` — what the search adds to the marginal
* `Tree.unfailing_iff` — the trees that the search does not fail on
* `Tree.agree_explore` — trees with the same masses are searched with the same result
* `Tree.Rearranged.mass_eq` — rearranged trees have the same masses
* `Inference.enumerate_posterior` — enumeration gives the posterior
-/

namespace Posterior

open scoped ENNReal

namespace Distribution

/-- The log-probability of a value, minus infinity where there is none. -/
noncomputable def logProb (d : Distribution EReal) (params : List Value) (v : Value) : EReal :=
  match d.score params v with
  | .ok l => l
  | .error _ => ⊥

variable {d : Distribution EReal} {params : List Value}

theorem score_eq_logProb {v : Value} {l : EReal} (h : d.score params v = .ok l) :
    d.score params v = .ok (d.logProb params v) := by
  rw [logProb, h]

end Distribution

namespace Tree

/-- The paths from the root to an exit: the value of the exit, and the product of the probabilities
of the choices and of the factors of the constraints on the way. -/
noncomputable def paths : Tree EReal → List (Value × ℝ≥0∞)
  | exit v => [(v, 1)]
  | weight l t => scale l.exp t.paths
  | draw d params next =>
    (d.listed params).flatMap fun v => scale (d.logProb params v).exp (next v).paths
  | fail _ => []

/-- No effect of the tree fails, on any path: the support of each choice can be listed, each value in
it has a probability, no factor is infinite, and the program does not fail. -/
def Sound : Tree EReal → Prop
  | exit _ => True
  | weight l t => l ≠ ⊤ ∧ t.Sound
  | draw d params next => d.has .score = true ∧ ∃ vs, d.support params = .ok vs ∧
      ∀ v ∈ vs, (∃ l, d.score params v = .ok l ∧ l ≠ ⊤) ∧ (next v).Sound
  | fail _ => False

/-- No effect of the tree is answered with a failure, on any path. A probability may be infinite,
which the search does not look at. -/
def Unfailing : Tree EReal → Prop
  | exit _ => True
  | weight l t => l ≠ ⊤ ∧ t.Unfailing
  | draw d params next => d.has .score = true ∧ ∃ vs, d.support params = .ok vs ∧
      ∀ v ∈ vs, (∃ l, d.score params v = .ok l) ∧ (next v).Unfailing
  | fail _ => False

theorem Sound.unfailing {t : Tree EReal} (sound : t.Sound) : t.Unfailing := by
  induction t with
  | exit v => trivial
  | weight l t ih => exact ⟨sound.1, ih sound.2⟩
  | draw d params next ih =>
    obtain ⟨has, vs, support, sound⟩ := sound
    refine ⟨has, vs, support, fun v hv => ?_⟩
    obtain ⟨⟨l, score, -⟩, below⟩ := sound v hv
    exact ⟨⟨l, score⟩, ih v below⟩
  | fail e => exact sound.elim

theorem mass_exit (p : Value → Bool) (v : Value) :
    mass p (exit v).paths = if p v then 1 else 0 := by simp [paths]

theorem mass_weight (p : Value → Bool) (l : EReal) (t : Tree EReal) :
    mass p (weight l t).paths = l.exp * mass p t.paths := by rw [paths, mass_scale]

theorem mass_draw (p : Value → Bool) (d : Distribution EReal) (params : List Value)
    (next : Value → Tree EReal) :
    mass p (draw d params next).paths =
      ((d.listed params).map fun v => (d.logProb params v).exp * mass p (next v).paths).sum := by
  simp only [paths, mass_flatMap, mass_scale]

/-- The paths of a sound tree have finite masses. -/
theorem Sound.paths_ne_top {t : Tree EReal} (sound : t.Sound) : ∀ w ∈ t.paths, w.2 ≠ ⊤ := by
  induction t with
  | exit v => simp [paths]
  | weight l t ih =>
    obtain ⟨below, sound⟩ := sound
    intro w hw
    obtain ⟨u, hu, rfl⟩ := List.mem_map.1 hw
    exact ENNReal.mul_ne_top (by simpa using below) (ih sound u hu)
  | draw d params next ih =>
    obtain ⟨-, vs, support, sound⟩ := sound
    intro w hw
    rw [paths, Distribution.listed_of_support support] at hw
    obtain ⟨v, hv, hw⟩ := List.mem_flatMap.1 hw
    obtain ⟨u, hu, rfl⟩ := List.mem_map.1 hw
    obtain ⟨⟨l, score, below⟩, sound⟩ := sound v hv
    refine ENNReal.mul_ne_top ?_ (ih v sound u hu)
    rw [Distribution.logProb, score]
    simpa using below
  | fail e => exact sound.elim

/-! ### What the search adds to the marginal -/

/-- The children of a choice whose values all have probabilities. -/
theorem children_of_score {d : Distribution EReal} {params : List Value} {vs : List Value}
    (has : d.has .score = true) (support : d.support params = .ok vs)
    (scored : ∀ v ∈ vs, ∃ l, d.score params v = .ok l) (score : EReal) :
    children d params score = .ok (vs.map fun v => (v, score + d.logProb params v)) := by
  refine children_eq_ok_iff.2 ⟨has, vs, support, ?_⟩
  rw [List.forall₂_map_right_iff, List.forall₂_same]
  intro v hv
  obtain ⟨l, scored⟩ := scored v hv
  exact ⟨_, Distribution.score_eq_logProb scored, rfl⟩

/-- The search does not fail, and it adds the masses of the given values to those in the marginal. -/
def Adds (x : Exploration EReal) (m : Marginal EReal) (ws : List (Value × ℝ≥0∞)) : Prop :=
  ∃ m', x.outcome = .ok m' ∧ ∀ p, Saturated p →
    mass p (Marginal.weighted m'.entries) = mass p (Marginal.weighted m.entries) + mass p ws

/-- Children add to the marginal one after the other. -/
theorem adds_exploreAll (explore : Value → EReal → Nat → Marginal EReal → Exploration EReal)
    (below : Value × EReal → List (Value × ℝ≥0∞)) {cs : List (Value × EReal)}
    (children : ∀ c ∈ cs, ∀ waiting m, Adds (explore c.1 c.2 waiting m) m (below c))
    (waiting : Nat) (m : Marginal EReal) :
    Adds (exploreAll explore waiting cs m) m (cs.flatMap below) := by
  induction cs generalizing m with
  | nil => exact ⟨m, rfl, by simp⟩
  | cons c cs ih =>
    obtain ⟨m₁, first, adds₁⟩ := children c List.mem_cons_self (cs.length + waiting) m
    obtain ⟨m₂, others, adds₂⟩ := ih (fun c hc => children c (List.mem_cons_of_mem _ hc)) m₁
    refine ⟨m₂, ?_, fun p saturated => ?_⟩
    · rw [exploreAll, Exploration.andThen, first]
      exact others
    · rw [adds₂ p saturated, adds₁ p saturated, List.flatMap_cons, mass_append, add_assoc]

/-- Below a node the search adds the masses of the paths from there on, multiplied by the mass of the
path to the node. -/
theorem adds_explore {t : Tree EReal} (unfailing : t.Unfailing) (score : EReal) (waiting : Nat)
    (m : Marginal EReal) : Adds (t.explore score waiting m) m (scale score.exp t.paths) := by
  induction t generalizing score waiting m with
  | exit v =>
    refine ⟨m.addLog v score, rfl, fun p saturated => ?_⟩
    rw [Marginal.mass_addLog saturated, mass_scale, mass_exit, mul_ite, mul_one, mul_zero]
  | weight l t ih =>
    obtain ⟨below, unfailing⟩ := unfailing
    have fine : (Scalar.isNaN l || Scalar.eq l Scalar.posInf) = false := by
      simpa [Bool.eq_false_iff] using below
    obtain ⟨m', outcome, adds⟩ := ih unfailing (score + l) waiting m
    refine ⟨m', ?_, fun p saturated => ?_⟩
    · rw [explore, fine]
      exact outcome
    · rw [adds p saturated, mass_scale, mass_scale, mass_weight, EReal.exp_add, mul_assoc]
  | draw d params next ih =>
    obtain ⟨has, vs, support, unfailing⟩ := unfailing
    have scored := children_of_score has support (fun v hv => (unfailing v hv).1) score
    -- Children are explored from the last to the first, but sums of masses do not see the order.
    have children : ∀ c ∈ (vs.map fun v => (v, score + d.logProb params v)).reverse,
        ∀ waiting m, Adds ((next c.1).explore c.2 waiting m) m (scale c.2.exp (next c.1).paths) := by
      intro c hc
      obtain ⟨v, hv, rfl⟩ := List.mem_map.1 (List.mem_reverse.1 hc)
      exact ih v (unfailing v hv).2 _
    obtain ⟨m', outcome, adds⟩ := adds_exploreAll (fun v => (next v).explore)
      (fun c => scale c.2.exp (next c.1).paths) children waiting m
    refine ⟨m', ?_, fun p saturated => ?_⟩
    · rw [explore, scored]
      exact outcome
    · rw [adds p saturated, mass_scale, mass_draw, Distribution.listed_of_support support,
        mass_flatMap, List.map_reverse, List.sum_reverse, ← List.sum_map_mul_left, List.map_map]
      simp only [Function.comp_def, mass_scale, EReal.exp_add, mul_assoc]
  | fail e => exact unfailing.elim

/-- What a search has not failed on, it has not failed on in any part. -/
theorem exists_outcome_of_exploreAll
    {explore : Value → EReal → Nat → Marginal EReal → Exploration EReal} {waiting : Nat}
    {cs : List (Value × EReal)} {m m' : Marginal EReal}
    (h : (exploreAll explore waiting cs m).outcome = .ok m') :
    ∀ c ∈ cs, ∃ waiting m₁ m₂, (explore c.1 c.2 waiting m₁).outcome = .ok m₂ := by
  induction cs generalizing m with
  | nil => simp
  | cons c cs ih =>
    rw [exploreAll, Exploration.andThen] at h
    -- The others are explored only after the first, from the marginal that it leaves.
    cases first : (explore c.1 c.2 (cs.length + waiting) m).outcome with
    | error e => simp [first] at h
    | ok m₁ =>
      rw [first] at h
      exact List.forall_mem_cons.2 ⟨⟨_, _, _, first⟩, ih h⟩

/-- The trees that the search does not fail on are those without failing effects. -/
theorem unfailing_iff {t : Tree EReal} {score : EReal} {waiting : Nat} {m : Marginal EReal} :
    t.Unfailing ↔ ∃ m', (t.explore score waiting m).outcome = .ok m' := by
  constructor
  · intro unfailing
    obtain ⟨m', outcome, -⟩ := adds_explore unfailing score waiting m
    exact ⟨m', outcome⟩
  · rintro ⟨m', outcome⟩
    induction t generalizing score waiting m m' with
    | exit v => trivial
    | weight l t ih =>
      rw [explore, Exploration.after] at outcome
      split at outcome
      · cases outcome
      · next fine =>
        exact ⟨by simpa using fine, ih m' outcome⟩
    | draw d params next ih =>
      rw [explore, Exploration.after] at outcome
      cases split : children d params score with
      | error e => simp [split] at outcome
      | ok cs =>
        rw [split] at outcome
        have below := exists_outcome_of_exploreAll outcome
        -- Each value of the support has its child in the same place, which has been explored.
        obtain ⟨has, vs, support, scored⟩ := children_eq_ok_iff.1 split
        refine ⟨has, vs, support, fun v hv => ?_⟩
        obtain ⟨i, rfl⟩ := List.mem_iff_get.1 hv
        obtain ⟨length, entry⟩ := List.forall₂_iff_get.1 scored
        have inside : i < cs.length := length ▸ i.2
        obtain ⟨l, score, child⟩ := entry i i.2 inside
        obtain ⟨waiting, m₁, m₂, explored⟩ :=
          below _ (List.mem_reverse.2 (List.get_mem cs ⟨i, inside⟩))
        rw [child] at explored
        exact ⟨⟨l, score⟩, ih _ m₂ explored⟩
    | fail e => cases outcome

/-! ### Order of supports, and paths without mass -/

/-- No path of the tree has mass: each is rejected, or ends in a choice without values, or has a
choice of a value without probability. -/
inductive Dead : Tree EReal → Prop where
  | rejected (t : Tree EReal) : Dead (.weight ⊥ t)
  | weight {t} (l : EReal) : Dead t → Dead (.weight l t)
  | draw {d params next} :
    (∀ v ∈ d.listed params, d.logProb params v ≠ ⊥ → Dead (next v)) → Dead (.draw d params next)

/-- The trees differ in the order in which supports list their values, and in parts that are dead. -/
inductive Rearranged : Tree EReal → Tree EReal → Prop where
  | exit (v : Value) : Rearranged (.exit v) (.exit v)
  | weight {t t'} (l : EReal) : Rearranged t t' → Rearranged (.weight l t) (.weight l t')
  | draw {d d' params params' next next'} {live dead dead' : List Value} :
    (d.listed params).Perm (live ++ dead) → (d'.listed params').Perm (live ++ dead') →
    (∀ v ∈ live, d'.logProb params' v = d.logProb params v) →
    (∀ v ∈ live, Rearranged (next v) (next' v)) →
    (∀ v ∈ dead, d.logProb params v ≠ ⊥ → Dead (next v)) →
    (∀ v ∈ dead', d'.logProb params' v ≠ ⊥ → Dead (next' v)) →
    Rearranged (.draw d params next) (.draw d' params' next')
  | dead {t t'} : Dead t → Dead t' → Rearranged t t'

theorem sum_eq_zero_of_dead {d : Distribution EReal} {params : List Value} {next : Value → Tree EReal}
    {p : Value → Bool} {dead : List Value}
    (h : ∀ v ∈ dead, d.logProb params v ≠ ⊥ → mass p (next v).paths = 0) :
    (dead.map fun v => (d.logProb params v).exp * mass p (next v).paths).sum = 0 := by
  refine List.sum_eq_zero fun x hx => ?_
  obtain ⟨v, hv, rfl⟩ := List.mem_map.1 hx
  by_cases none : d.logProb params v = ⊥
  · rw [none, EReal.exp_bot, zero_mul]
  · rw [h v hv none, mul_zero]

/-- Dead trees contribute nothing. -/
theorem Dead.mass_eq_zero {t : Tree EReal} (h : t.Dead) (p : Value → Bool) :
    mass p t.paths = 0 := by
  induction h with
  | rejected t => rw [mass_weight, EReal.exp_bot, zero_mul]
  | weight l _ ih => rw [mass_weight, ih, mul_zero]
  | draw _ ih =>
    rw [mass_draw]
    exact sum_eq_zero_of_dead ih

/-- Rearranged trees have the same masses. -/
theorem Rearranged.mass_eq {t t' : Tree EReal} (h : t.Rearranged t') (p : Value → Bool) :
    mass p t'.paths = mass p t.paths := by
  induction h with
  | exit v => rfl
  | weight l _ ih => rw [mass_weight, mass_weight, ih]
  | draw perm perm' same _ dead dead' ih =>
    rw [mass_draw, mass_draw, (perm.map _).sum_eq, (perm'.map _).sum_eq, List.map_append,
      List.map_append, List.sum_append, List.sum_append,
      sum_eq_zero_of_dead fun v hv some => (dead v hv some).mass_eq_zero p,
      sum_eq_zero_of_dead fun v hv some => (dead' v hv some).mass_eq_zero p]
    -- What is left on both sides are the parts with mass, in one order.
    congr 2
    exact List.map_congr_left fun v hv => by rw [same v hv, ih v hv]
  | dead h h' => rw [h.mass_eq_zero, h'.mass_eq_zero]

/-! ### The search from the root -/

/-- What the search of an unfailing tree gives is frozen from a marginal with the masses of the
paths. -/
theorem exists_marginal_explore {t : Tree EReal} (unfailing : t.Unfailing) :
    ∃ m : Marginal EReal,
      (t.explore Scalar.zero 0 .empty).result = m.normalized.map Marginal.toDistribution ∧
      ∀ p, Saturated p → mass p t.paths = mass p (Marginal.weighted m.entries) := by
  obtain ⟨m, outcome, adds⟩ := adds_explore unfailing Scalar.zero 0 .empty
  refine ⟨m, by rw [Exploration.result, outcome]; rfl, fun p saturated => ?_⟩
  -- The root is reached with all of the mass, and the marginal starts without any.
  rw [adds p saturated, mass_scale, Scalar.exact_zero, EReal.exp_zero, one_mul]
  exact (zero_add _).symm

/-- The search of an unfailing tree fails only for want of mass, or of a mass to divide by. -/
theorem explore_eq_zeroMass_iff {t : Tree EReal} (unfailing : t.Unfailing) :
    (t.explore Scalar.zero 0 .empty).result = .error .zeroMass ↔
      totalMass t.paths = 0 ∨ totalMass t.paths = ⊤ := by
  obtain ⟨m, result, masses⟩ := exists_marginal_explore unfailing
  rw [result, Marginal.map_normalized_eq_error_iff, totalMass, totalMass,
    ← masses _ saturated_univ]

/-- The search of a sound tree gives the distribution proportional to the masses of its paths. -/
theorem normalizes_explore {t : Tree EReal} (sound : t.Sound) :
    Normalizes t.paths (t.explore Scalar.zero 0 .empty).result := by
  obtain ⟨m, result, masses⟩ := exists_marginal_explore sound.unfailing
  have finite : totalMass (Marginal.weighted m.entries) ≠ ⊤ := by
    rw [totalMass, ← masses _ saturated_univ]
    exact mass_ne_top sound.paths_ne_top
  rw [result]
  exact (m.normalizes finite).congr masses

/-- Unfailing trees with the same masses are searched with the same result. -/
theorem agree_explore {t t' : Tree EReal} (unfailing : t.Unfailing) (unfailing' : t'.Unfailing)
    (same : ∀ p, mass p t'.paths = mass p t.paths) :
    Agree (t.explore Scalar.zero 0 .empty).result (t'.explore Scalar.zero 0 .empty).result := by
  obtain ⟨m, result, masses⟩ := exists_marginal_explore unfailing
  obtain ⟨m', result', masses'⟩ := exists_marginal_explore unfailing'
  rw [result, result']
  exact Marginal.agree_normalized fun p saturated => by
    rw [← masses p saturated, ← masses' p saturated, same]

end Tree

namespace Inference

variable {T : Type → Type} {K : Type} [Strategy EReal T] [Resumable EReal (Strategies EReal T) K]

/-- Enumeration computes the exact posterior. For a program with finite paths and no failing effect,
the run ends and its result is the distribution proportional to the masses of the paths: it fails
for want of mass exactly if no path has any, and otherwise lists the values on which there is mass
and scores each value by the logarithm of its part of all the mass. The masses do not depend on the
order of supports, and rejected and dead paths contribute nothing to them. -/
theorem enumerate_posterior {a : Action EReal (Strategies EReal T) K} {t : Tree EReal}
    (h : a.Unfolds t) (sound : t.Sound) (settings : Settings)
    (r : Router EReal (Strategies EReal T) K) :
    (∃ result, Normalizes t.paths result ∧ ∃ enough, ∀ fuel ≥ enough, ∃ r',
      enumerate fuel settings a r = some (result, r')) ∧
    ∀ t', t.Rearranged t' →
      totalMass t'.paths = totalMass t.paths ∧ ∀ v, massOf t'.paths v = massOf t.paths v := by
  obtain ⟨enough, run⟩ := Run.infer_of_explores (Enumeration.explores_of_unfolds h settings) r
  refine ⟨⟨_, Tree.normalizes_explore sound, enough, fun fuel hf => ?_⟩, fun t' rearranged => ?_⟩
  · obtain ⟨⟨s, r', inferred⟩, -⟩ := run fuel hf
    exact ⟨r', by rw [enumerate, inferred]⟩
  · exact ⟨rearranged.mass_eq _, fun v => rearranged.mass_eq _⟩

end Inference

/-! ### A rejected path -/

/-- A fair choice between true, which is rejected, and false. -/
noncomputable def Tree.rejecting : Tree EReal :=
  .draw Distribution.uniformDraw [.bool true, .bool false] fun
    | .bool true => .weight ⊥ (.exit (.bool true))
    | v => .exit v

namespace Tree

/-- The sides of a fair choice have half of the mass each. -/
theorem exp_score_uniformDraw {v : Value} (hv : v ∈ [Value.bool true, .bool false]) :
    ∃ l : EReal, Distribution.uniformDraw.score [.bool true, .bool false] v = .ok l ∧
      l.exp = 2⁻¹ := by
  refine ⟨Scalar.ln (Scalar.ofNat 1 / Scalar.ofNat 2), ?_, ?_⟩
  · rcases List.mem_pair.1 hv with rfl | rfl <;> rfl
  · change (ENNReal.log (((1 : ℕ) : EReal) / ((2 : ℕ) : EReal)).toENNReal).exp = _
    rw [ENNReal.exp_log, ← EReal.coe_coe_eq_natCast, ← EReal.coe_coe_eq_natCast, ← EReal.coe_div,
      EReal.real_coe_toENNReal, ENNReal.ofReal_div_of_pos (by norm_num)]
    simp

theorem sound_fair {next : Value → Tree EReal}
    (below : ∀ v ∈ [Value.bool true, .bool false], (next v).Sound) :
    (draw Distribution.uniformDraw [.bool true, .bool false] next).Sound := by
  refine ⟨rfl, [.bool true, .bool false], rfl, fun v hv => ?_⟩
  obtain ⟨l, score, half⟩ := exp_score_uniformDraw hv
  refine ⟨⟨l, score, ?_⟩, below v hv⟩
  rintro rfl
  exact ENNReal.inv_ne_top.2 two_ne_zero (half.symm.trans EReal.exp_top)

theorem mass_fair (p : Value → Bool) (next : Value → Tree EReal) :
    mass p (draw Distribution.uniformDraw [.bool true, .bool false] next).paths =
      2⁻¹ * mass p (next (.bool true)).paths + 2⁻¹ * mass p (next (.bool false)).paths := by
  have prob : ∀ v ∈ [Value.bool true, .bool false],
      (Distribution.uniformDraw.logProb [.bool true, .bool false] v).exp = 2⁻¹ := by
    intro v hv
    obtain ⟨l, score, half⟩ := exp_score_uniformDraw hv
    rw [Distribution.logProb, score, half]
  have listed : Distribution.uniformDraw.listed (X := EReal) [.bool true, .bool false] =
    [.bool true, .bool false] := rfl
  rw [mass_draw, listed, List.map_cons, List.map_singleton, prob _ (by simp), prob _ (by simp),
    List.sum_cons, List.sum_singleton]

theorem rejecting_sound : rejecting.Sound := by
  refine sound_fair fun v hv => ?_
  rcases List.mem_pair.1 hv with rfl | rfl
  · exact ⟨bot_ne_top, trivial⟩
  · trivial

/-- The same choice, with its sides the other way round. -/
noncomputable def rejectingSwapped : Tree EReal :=
  .draw Distribution.uniformDraw [.bool false, .bool true] fun
    | .bool true => .weight ⊥ (.exit (.bool true))
    | v => .exit v

theorem rearranged_rejectingSwapped : rejecting.Rearranged rejectingSwapped := by
  have sides : [Value.bool true, .bool false].Perm ([.bool true, .bool false] ++ []) := .refl _
  have swapped : [Value.bool false, .bool true].Perm ([.bool true, .bool false] ++ []) := .swap ..
  refine .draw sides swapped ?_ ?_ (by simp) (by simp)
  · intro v hv
    rcases List.mem_pair.1 hv with rfl | rfl <;> rfl
  · intro v hv
    rcases List.mem_pair.1 hv with rfl | rfl
    · exact .weight _ (.exit _)
    · exact .exit _

theorem mass_rejecting (p : Value → Bool) :
    mass p rejecting.paths = if p (.bool false) then 2⁻¹ else 0 := by
  rw [rejecting, mass_fair, mass_weight, mass_exit, mass_exit]
  simp

end Tree

/-- All of the mass is on false. -/
theorem Normalizes.of_rejecting {result : Result (Distribution EReal)}
    (h : Normalizes Tree.rejecting.paths result) :
    ∃ d vs, result = .ok d ∧ d.support [] = .ok vs ∧ Value.isIn (.bool true) vs = false ∧
      d.score [] (.bool false) = .ok 0 := by
  obtain ⟨d, vs, rfl, support, -, listed, scored⟩ := h.distribution (by simp [Tree.mass_rejecting])
  refine ⟨d, vs, rfl, support [], ?_, ?_⟩
  · rw [Bool.eq_false_iff, ne_eq, listed, massOf, Tree.mass_rejecting,
      if_neg (show ¬(Value.bool false == .bool true) = true by decide)]
    exact lt_irrefl 0
  · rw [scored, massOf, totalMass, Tree.mass_rejecting, Tree.mass_rejecting,
      if_pos BEq.rfl, if_pos rfl, ENNReal.div_self (by simp) (by simp), ENNReal.log_one]

namespace Inference

/-- What is left of a choice one side of which is rejected is the other side, whichever of them is
listed first. -/
theorem enumerate_posterior_rejecting :
    ∃ d vs enough, (∀ fuel ≥ enough, ∃ r',
      enumerate fuel {}
        (Tree.rejecting.program : Action EReal (Strategies EReal (NoOther EReal)) _)
        { source := .ofWords #[] } = some (.ok d, r')) ∧
      d.support [] = .ok vs ∧ Value.isIn (.bool true) vs = false ∧
      d.score [] (.bool false) = .ok 0 ∧
      massOf Tree.rejectingSwapped.paths (.bool false) = 2⁻¹ := by
  obtain ⟨⟨result, normalized, enough, run⟩, same⟩ :=
    enumerate_posterior (T := NoOther EReal) Tree.rejecting.unfolds_program Tree.rejecting_sound {}
      { source := .ofWords #[] }
  obtain ⟨d, vs, rfl, support, absent, certain⟩ := normalized.of_rejecting
  refine ⟨d, vs, enough, run, support, absent, certain, ?_⟩
  rw [(same _ Tree.rearranged_rejectingSwapped).2, massOf, Tree.mass_rejecting, if_pos BEq.rfl]

end Inference

end Posterior
