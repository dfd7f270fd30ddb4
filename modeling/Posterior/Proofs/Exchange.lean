import Posterior.Proofs.ExactPosterior
import Posterior.Proofs.Resolution

/-!
# Exchanging independent effects

Two effects that follow each other, neither of which uses the result of the other, may change places
anywhere in a program. Enumeration then explores other paths at other times and with other scores,
and adds to its marginal in another order. In exact arithmetic the masses of the paths are the same,
and the result is as well.

## Main definitions

* `Tree.Exchanged` — trees that differ in the order of independent effects

## Main results

* `Tree.Exchanged.mass_eq` — the masses do not depend on the order
* `Inference.enumerate_exchange` — nor does the result of enumeration
-/

namespace Posterior

open scoped ENNReal

namespace Tree

/-- The trees differ in the order of effects that follow each other: two choices, or a choice and a
constraint, none of which depends on what the other gives. They may do so in any number of places,
below choices only for the values that are listed. -/
inductive Exchanged {X : Type} : Tree X → Tree X → Prop where
  | draws (d d' : Distribution X) (params params' : List Value) (next : Value → Value → Tree X) :
    Exchanged (.draw d params fun u => .draw d' params' fun v => next u v)
      (.draw d' params' fun v => .draw d params fun u => next u v)
  | drawWeight (d : Distribution X) (params : List Value) (l : X) (next : Value → Tree X) :
    Exchanged (.draw d params fun v => .weight l (next v)) (.weight l (.draw d params next))
  | draw {d params next next'} : (∀ v ∈ d.listed params, Exchanged (next v) (next' v)) →
    Exchanged (.draw d params next) (.draw d params next')
  | weight {t t'} (l : X) : Exchanged t t' → Exchanged (.weight l t) (.weight l t')
  | refl (t : Tree X) : Exchanged t t
  | symm {t t'} : Exchanged t t' → Exchanged t' t
  | trans {t t' t''} : Exchanged t t' → Exchanged t' t'' → Exchanged t t''

/-- The order of the two sums does not matter. -/
theorem sum_map_sum_map_comm {α β : Type} (xs : List α) (ys : List β) (f : α → β → ℝ≥0∞) :
    (xs.map fun x => (ys.map fun y => f x y).sum).sum =
      (ys.map fun y => (xs.map fun x => f x y).sum).sum := by
  simpa only [Multiset.map_coe, Multiset.sum_coe] using
    Multiset.sum_map_sum_map (xs : Multiset α) (ys : Multiset β) (f := f)

/-- Two choices that do not depend on each other have the same masses in both orders. -/
theorem mass_draw_draw (p : Value → Bool) (d d' : Distribution EReal) (params params' : List Value)
    (next : Value → Value → Tree EReal) :
    mass p (draw d params fun u => draw d' params' fun v => next u v).paths =
      mass p (draw d' params' fun v => draw d params fun u => next u v).paths := by
  simp only [mass_draw, ← List.sum_map_mul_left]
  -- Both are sums over pairs of values, taken in the two orders.
  rw [sum_map_sum_map_comm]
  simp only [mul_left_comm]

/-- Trees that differ in the order of independent effects have the same masses. -/
theorem Exchanged.mass_eq {t t' : Tree EReal} (h : t.Exchanged t') (p : Value → Bool) :
    mass p t'.paths = mass p t.paths := by
  induction h with
  | draws d d' params params' next => exact mass_draw_draw p d' d params' params fun v u => next u v
  | drawWeight d params l next =>
    -- The factor of the constraint is common to all terms of the sum.
    simp only [mass_draw, mass_weight, ← List.sum_map_mul_left, mul_left_comm]
  | draw _ ih =>
    rw [mass_draw, mass_draw]
    exact congrArg List.sum (List.map_congr_left fun v hv => by rw [ih v hv])
  | weight l _ ih => rw [mass_weight, mass_weight, ih]
  | refl t => rfl
  | symm _ ih => exact ih.symm
  | trans _ _ ih ih' => exact ih'.trans ih

end Tree

namespace Inference

variable {T : Type → Type} {K L : Type} [Strategy EReal T]
  [Resumable EReal (Strategies EReal T) K] [Resumable EReal (Strategies EReal T) L]

/-- Independent effects commute under enumeration. If two programs differ in the order of effects
that do not use the results of each other, and none of their effects fails on any path, then the
enumerations of both fail for want of mass, or both give distributions, which list the same values
and score each value alike. They fail exactly if the paths have no mass, or one that is infinite. -/
theorem enumerate_exchange {a : Action EReal (Strategies EReal T) K}
    {b : Action EReal (Strategies EReal T) L} {t t' : Tree EReal} (resolves : a.Resolves t)
    (resolves' : b.Resolves t') (exchanged : t.Exchanged t') (unfailing : t.Unfailing)
    (unfailing' : t'.Unfailing) (settings settings' : Settings) :
    ∃ x y, Enumerates settings a x ∧ Enumerates settings' b y ∧ Agree x y ∧
      (x = .error .zeroMass ↔ totalMass t.paths = 0 ∨ totalMass t.paths = ⊤) :=
  ⟨_, _, enumerates_of_resolves resolves settings, enumerates_of_resolves resolves' settings',
    Tree.agree_explore unfailing unfailing' exchanged.mass_eq,
    Tree.explore_eq_zeroMass_iff unfailing⟩

end Inference

/-! ### Two choices and a constraint -/

/-- Two fair choices, and then a constraint. -/
noncomputable def Tree.tossing : Tree EReal :=
  .draw Distribution.uniformDraw [.bool true, .bool false] fun u =>
    .draw Distribution.uniformDraw [.bool true, .bool false] fun v =>
      .weight 1 (.exit (.list [u, v]))

/-- The second choice is made first, and the constraint stands between the two. -/
noncomputable def Tree.tossingLate : Tree EReal :=
  .draw Distribution.uniformDraw [.bool true, .bool false] fun v =>
    .weight 1 <| .draw Distribution.uniformDraw [.bool true, .bool false] fun u =>
      .exit (.list [u, v])

namespace Tree

theorem exchanged_tossing : tossing.Exchanged tossingLate :=
  .trans (.draws ..) (.draw fun _ _ => .drawWeight ..)

theorem sound_tossing : tossing.Sound :=
  sound_fair fun _ _ => sound_fair fun _ _ => ⟨EReal.coe_ne_top 1, trivial⟩

theorem sound_tossingLate : tossingLate.Sound :=
  sound_fair fun _ _ => ⟨EReal.coe_ne_top 1, sound_fair fun _ _ => trivial⟩

theorem totalMass_tossing : totalMass tossing.paths = EReal.exp 1 := by
  have halves : (2 : ℝ≥0∞)⁻¹ * EReal.exp 1 + 2⁻¹ * EReal.exp 1 = EReal.exp 1 := by
    rw [← add_mul, ENNReal.inv_two_add_inv_two, one_mul]
  simp only [totalMass, tossing, mass_fair, mass_weight, mass_exit, if_true, mul_one, halves]

end Tree

/-- The order of the two choices and the constraint cannot be told from the distribution. -/
theorem Inference.enumerate_exchange_tossing :
    ∃ d d', Enumerates {} (Tree.tossing.program : Action EReal (Strategies EReal (NoOther EReal)) _)
        (.ok d) ∧
      Enumerates {} (Tree.tossingLate.program : Action EReal (Strategies EReal (NoOther EReal)) _)
        (.ok d') ∧ d.Alike d' := by
  obtain ⟨x, y, hx, hy, agree, fails⟩ := enumerate_exchange (T := NoOther EReal)
    Tree.tossing.unfolds_program.resolves Tree.tossingLate.unfolds_program.resolves
    Tree.exchanged_tossing Tree.sound_tossing.unfailing Tree.sound_tossingLate.unfailing {} {}
  rw [Tree.totalMass_tossing, EReal.exp_eq_zero_iff, EReal.exp_eq_top_iff] at fails
  rcases agree with ⟨failed, -⟩ | ⟨d, d', rfl, rfl, alike⟩
  · rcases fails.1 failed with none | infinite
    · exact absurd none (EReal.coe_ne_bot 1)
    · exact absurd infinite (EReal.coe_ne_top 1)
  · exact ⟨d, d', hx, hy, alike⟩

end Posterior
