import Posterior.Proofs.ExactPosterior
import Posterior.Proofs.Normalization
import Posterior.Proofs.Resolution

/-!
# Enumerating an enumeration

A program may enumerate another, draw a value from the distribution that this gives and exit with the
value. In exact arithmetic enumerating that program gives nothing new: the inner enumeration
normalizes and freezes its marginal, drawing from the frozen marginal puts its masses into another,
and normalizing a second time changes nothing.

## Main definitions

* `Redraws` — programs that draw from the enumeration of another
* `Tree.redraw` — what such a program does once the other has been enumerated

## Main results

* `Tree.mass_redraw` — drawing from a frozen marginal gives back its masses
* `Inference.enumerate_flattens` — enumerating a nested enumeration flattens
-/

namespace Posterior

open scoped ENNReal

/-! ### Drawing from a frozen marginal -/

namespace Marginal

theorem logProb_toDistribution (n : Marginal EReal) (params : List Value) {e : Value × EReal}
    (he : e ∈ n.entries) : n.toDistribution.logProb params e.1 = e.2 := by
  have score : n.toDistribution.score params e.1 = .ok ((find? e.1 n.entries).getD ⊥) := rfl
  rw [Distribution.logProb, score, find?_of_mem n.distinct he BEq.rfl]
  rfl

end Marginal

namespace Tree

/-- What a program does with the result of an inference, if it draws from the distribution and exits
with the value: a failure is its own. -/
def redraw {X : Type} : Result (Distribution X) → Tree X
  | .error e => .fail e
  | .ok d => .draw d [] .exit

variable (n : Marginal EReal)

theorem unfailing_redraw : (redraw (.ok n.toDistribution)).Unfailing :=
  ⟨rfl, n.keys, rfl, fun _ _ => ⟨⟨_, rfl⟩, trivial⟩⟩

/-- Drawing from a frozen marginal puts its mass on each value. -/
theorem mass_redraw (p : Value → Bool) :
    mass p (redraw (.ok n.toDistribution)).paths = mass p (Marginal.weighted n.entries) := by
  have listed : n.toDistribution.listed [] = n.entries.map Prod.fst := rfl
  rw [redraw, mass_draw, listed, List.map_map, Marginal.weighted, mass_map]
  -- Each entry is found by its own value, so both sums run over the entries.
  refine congrArg List.sum (List.map_congr_left fun e he => ?_)
  rw [Function.comp_apply, n.logProb_toDistribution [] he, mass_exit, mul_ite, mul_one, mul_zero]

/-- Drawing from a frozen marginal gives its distribution again, normalized. -/
theorem agree_explore_redraw : Agree (n.normalized.map Marginal.toDistribution)
    ((redraw (.ok n.toDistribution)).explore Scalar.zero 0 .empty).result := by
  obtain ⟨m, result, masses⟩ := exists_marginal_explore (unfailing_redraw n)
  rw [result]
  exact Marginal.agree_normalized fun p saturated => by rw [← masses p saturated, mass_redraw]

end Tree

/-- What a search gives is frozen from a marginal that is normalized already. -/
theorem Exploration.exists_normalized {x : Exploration EReal} {d : Distribution EReal}
    (h : x.result = .ok d) : ∃ n : Marginal EReal, n.normalized = .ok n ∧ d = n.toDistribution := by
  rw [result] at h
  cases outcome : x.outcome with
  | error e => rw [outcome] at h; cases h
  | ok m =>
    cases normal : m.normalized with
    | error e => rw [outcome, Except.bind, normal] at h; cases h
    | ok n =>
      rw [outcome, Except.bind, normal] at h
      exact ⟨n, Marginal.normalized_idem normal, (Except.ok.inj h).symm⟩

/-- Redrawing what a search gives leads to the same failure, or to a distribution alike. -/
theorem Exploration.redraw_result (x : Exploration EReal) :
    (∃ e, x.result = .error e ∧
      ((Tree.redraw x.result).explore Scalar.zero 0 .empty).result = .error e) ∨
    ∃ d d', x.result = .ok d ∧
      ((Tree.redraw x.result).explore Scalar.zero 0 .empty).result = .ok d' ∧ d.Alike d' := by
  cases result : x.result with
  | error e => exact .inl ⟨e, rfl, rfl⟩
  | ok d =>
    obtain ⟨n, normal, rfl⟩ := exists_normalized result
    have agree := Tree.agree_explore_redraw n
    -- The second normalization has nothing left to do, so it does not fail either.
    rw [normal] at agree
    rcases agree with ⟨failed, -⟩ | ⟨d, d', ok, again, alike⟩
    · cases failed
    · obtain rfl : n.toDistribution = d := Except.ok.inj ok
      exact .inr ⟨_, d', rfl, again, alike⟩

/-! ### Programs that redraw -/

section

variable {T : Type → Type} {K : Type} [Strategy EReal T] [Resumable EReal (Strategies EReal T) K]

/-- The outer program enumerates the inner one with default settings, draws from the distribution
without parameters and exits with the value. If the enumeration fails, so does the program. -/
def Redraws (T : Type → Type) [Strategy EReal T] [Resumable EReal (Strategies EReal T) K]
    (inner outer : K) : Prop :=
  ∃ next : Result (Distribution EReal) → K,
    (.start outer : Action EReal (Strategies EReal T) K) = .infer (.enumeration {}) inner next ∧
    (∀ e, (.start (next (.error e)) : Action EReal (Strategies EReal T) K) = .fail e) ∧
    ∀ d, ∃ k, (.start (next (.ok d)) : Action EReal (Strategies EReal T) K) = .draw k d [] ∧
      ∀ v, (Resumable.resume k v : Action EReal (Strategies EReal T) K) = .perform (.exit v)

/-- The tree of such a program depends on the inner program only through the result of enumerating
it. -/
theorem Redraws.resolves {inner outer : K} (redraws : Redraws T inner outer) {t : Tree EReal}
    (h : (.start inner : Action EReal (Strategies EReal T) K).Resolves t) :
    (.start outer : Action EReal (Strategies EReal T) K).Resolves
      (Tree.redraw (t.explore Scalar.zero 0 .empty).result) := by
  obtain ⟨next, infers, fails, draws⟩ := redraws
  rw [infers]
  -- The inner enumeration gives inside the outer one what it gives on its own.
  refine .infer (Inference.infers_of_resolves h {}) ?_
  cases (t.explore Scalar.zero 0 .empty).result with
  | error e =>
    rw [fails]
    exact .fail e
  | ok d =>
    obtain ⟨k, drawn, exits⟩ := draws d
    rw [drawn]
    refine .draw fun _ _ v _ => ?_
    rw [exits]
    exact .exit v

/-- Enumerating a nested enumeration flattens. If a program draws from the enumeration of another and
exits with the value, then its own enumeration fails exactly if that of the other does, and with the
same failure; otherwise it gives a distribution that lists the same values and scores each value
alike. -/
theorem Inference.enumerate_flattens {inner outer : K} {t : Tree EReal}
    (resolves : (.start inner : Action EReal (Strategies EReal T) K).Resolves t)
    (redraws : Redraws T inner outer) (settings settings' : Settings) :
    ∃ x y, Enumerates (T := T) settings (.start inner) x ∧
      Enumerates (T := T) settings' (.start outer) y ∧ (∀ e, y = .error e ↔ x = .error e) ∧
      ∀ d, x = .ok d → ∃ d', y = .ok d' ∧ d.Alike d' := by
  refine ⟨_, _, enumerates_of_resolves resolves settings,
    enumerates_of_resolves (redraws.resolves resolves) settings', ?_⟩
  rcases (t.explore Scalar.zero 0 .empty).redraw_result with
    ⟨e, failed, same⟩ | ⟨d, d', ok, again, alike⟩
  · rw [failed] at same ⊢
    rw [same]
    exact ⟨fun _ => Iff.rfl, fun _ h => by cases h⟩
  · rw [ok] at again ⊢
    rw [again]
    refine ⟨fun e => by simp, fun c h => ⟨d', rfl, ?_⟩⟩
    exact Except.ok.inj h ▸ alike

end

/-! ### A program that redraws what is left of a choice -/

/-- The parts of a program that enumerates a program given as a tree and draws from the
distribution. -/
inductive Redrawing where
  /-- The rest of the inner program. -/
  | within (next : Value → Tree EReal)
  /-- The outer program. -/
  | whole (inner : Tree EReal)
  /-- The outer program once the inner one has been enumerated. -/
  | inferred (result : Result (Distribution EReal))
  /-- The outer program once it has drawn a value. -/
  | drawn

namespace Redrawing

/-- The inner program. -/
noncomputable def program : Tree EReal → Action EReal (Strategies EReal (NoOther EReal)) Redrawing
  | .draw d params next => .draw (.within next) d params
  | .weight l t => .weight (.within fun _ => t) l
  | .exit v => .perform (.exit v)
  | .fail e => .fail e

noncomputable instance : Resumable EReal (Strategies EReal (NoOther EReal)) Redrawing where
  resume
    | within next, v => program (next v)
    | whole inner, _ => .infer (.enumeration {}) (within fun _ => inner) inferred
    | inferred (.error e), _ => .fail e
    | inferred (.ok d), _ => .draw drawn d []
    | drawn, v => .perform (.exit v)

theorem unfolds_program (t : Tree EReal) : (program t).Unfolds t := by
  induction t with
  | draw d params next ih => exact .draw fun _ _ v _ => ih v
  | weight l t ih => exact .weight ih
  | exit v => exact .exit v
  | fail e => exact .fail e

theorem resolves_within (t : Tree EReal) :
    (.start (within fun _ => t) : Action EReal (Strategies EReal (NoOther EReal)) _).Resolves t :=
  (unfolds_program t).resolves

theorem redraws_whole (t : Tree EReal) : Redraws (NoOther EReal) (within fun _ => t) (whole t) :=
  ⟨inferred, rfl, fun _ => rfl, fun _ => ⟨drawn, rfl, fun _ => rfl⟩⟩

end Redrawing

/-- Enumerated, the outer program gives what is left of the choice: false, with certainty. -/
theorem Inference.enumerate_flattens_rejecting :
    ∃ d vs, Enumerates (T := NoOther EReal) {} (.start (Redrawing.whole Tree.rejecting)) (.ok d) ∧
      d.support [] = .ok vs ∧ Value.isIn (.bool true) vs = false ∧
      d.score [] (.bool false) = .ok 0 := by
  have resolves := Redrawing.resolves_within Tree.rejecting
  obtain ⟨x, y, hx, hy, -, flat⟩ :=
    enumerate_flattens resolves (Redrawing.redraws_whole Tree.rejecting) {} {}
  obtain rfl := hx.unique (enumerates_of_resolves resolves {}) { source := .ofWords #[] }
  obtain ⟨d, vs, ok, support, absent, certain⟩ :=
    (Tree.normalizes_explore Tree.rejecting_sound).of_rejecting
  obtain ⟨d', rfl, alike⟩ := flat d ok
  obtain ⟨us, us', lists, lists', same⟩ := alike.support
  obtain ⟨l, scored, scored'⟩ := alike.score [] [] (.bool false)
  obtain rfl : us = vs := Except.ok.inj ((lists []).symm.trans support)
  refine ⟨d', us', hy, lists' [], (same _).symm.trans absent, ?_⟩
  rw [scored', ← certain, scored]

end Posterior
