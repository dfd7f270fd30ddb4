import Posterior.Proofs.Exploration
import Posterior.Proofs.Isolation
import Posterior.Run.Fuel

/-!
# Programs that infer others

A program may infer others on its way, and go on with their distributions. Where such an inference
gives the same wherever it takes place, it leaves no trace in what enumeration finds out about the
program: what the program does after it is what the program does in its place. Such a program has a
tree as well, and its enumeration explores that tree.

## Main definitions

* `Run.Infers` — inferences that give the same wherever they take place
* `Action.Resolves` — the tree of a computation that may infer others
* `Inference.Enumerates` — what enumeration of a program gives, wherever it takes place

## Main results

* `Run.infers_of_unobserving` — inferences during which no program looks at the router
* `Enumeration.follows_of_resolves` — a run follows the tree
* `Inference.enumerates_of_resolves` — enumeration gives what depth-first search on the tree does
-/

namespace Posterior

variable {X : Type} {S : Type → Type} {K : Type}

/-! ### Inferences that do not depend on the router -/

namespace Run

variable [Strategy X S] [Resumable X S K]

/-- At any router the inference ends, and its result is the given one. -/
def Infers (s : S K) (a : Action X S K) (d : Result (Distribution X)) : Prop :=
  ∃ enough, ∀ fuel ≥ enough, ∀ r : Router X S K, ∃ s' r', infer fuel s a r = some (d, s', r')

/-- An inference that ends somewhere, without a program looking at the router meanwhile, ends
everywhere, and with the same result. -/
theorem infers_of_unobserving {fuel : Nat} {s s' : S K} {a : Action X S K} {r r' : Router X S K}
    {d : Result (Distribution X)} (unobserving : Unobserving (inferMoments fuel 0 s a r))
    (run : infer fuel s a r = some (d, s', r')) : Infers s a d := by
  refine ⟨fuel, fun fuel' enough q => ?_⟩
  -- With the same fuel the run ends alike at the other router, and more fuel changes nothing.
  have same := infer_eq_of_unobserving unobserving q
  rw [run] at same
  obtain ⟨⟨d', t, q'⟩, ends, equal⟩ := Option.map_eq_some_iff.1 same
  obtain ⟨rfl, rfl⟩ := Prod.mk.inj equal
  exact ⟨t, q', infer_mono enough ends⟩

end Run

/-- The computation performs the effects of the tree. Between them it may display values, and infer
other programs where that gives the same wherever it takes place. -/
inductive Action.Resolves {X : Type} {S : Type → Type} {K : Type} [Strategy X S] [Resumable X S K] :
    Action X S K → Tree X → Prop where
  | draw {k d params next} :
    (∀ vs, d.support params = .ok vs → ∀ v ∈ vs, Resolves (Resumable.resume k v) (next v)) →
      Resolves (.draw k d params) (.draw d params next)
  | weight {k l t} : Resolves (Resumable.resume k .unit) t → Resolves (.weight k l) (.weight l t)
  | exit (v : Value) : Resolves (.perform (.exit v)) (.exit v)
  | fail (e : Failure) : Resolves (.fail e) (.fail e)
  | display {v k t} : Resolves (.start k) t → Resolves (.display v k) t
  | infer {s program k d t} : Run.Infers s (.start program) d → Resolves (.start (k d)) t →
      Resolves (.infer s program k) t

/-- A program that does nothing but perform the effects of a tree is a case of it. -/
theorem Action.Unfolds.resolves [Strategy X S] [Resumable X S K] {a : Action X S K} {t : Tree X}
    (h : a.Unfolds t) : a.Resolves t := by
  induction h with
  | draw _ ih => exact .draw ih
  | weight _ ih => exact .weight ih
  | exit v => exact .exit v
  | fail e => exact .fail e
  | display _ ih => exact .display ih

/-! ### Enumeration -/

variable {T : Type → Type} [Scalar X] [Strategy X T] [Resumable X (Strategies X T) K]

namespace Enumeration

variable {e : Enumeration X K} {x : Exploration X}

/-- An inference on the way goes unnoticed: it leaves the search as it was. -/
theorem explores_infer {s : Strategies X T K} {program : K} {k : Result (Distribution X) → K}
    {d : Result (Distribution X)} (infers : Run.Infers s (.start program) d)
    (h : Explores T False (.start (k d)) e x) : Explores T False (.infer s program k) e x := by
  obtain ⟨enough, ends⟩ := infers
  obtain ⟨enough', h⟩ := h
  refine ⟨max enough enough' + 1, fun fuel hf more hm n level r holds => ?_⟩
  obtain ⟨fuel, rfl⟩ := Nat.exists_eq_add_of_le' (Nat.le_of_add_left_le hf)
  obtain ⟨s', r', run⟩ := ends fuel (by omega) r
  obtain ⟨es, after⟩ := Run.infer_router run
  -- What was active before has been brought back, so effects go to the same search.
  have held : r'.Holds e := by
    obtain rfl : r' = { r with events := es } := after
    exact holds
  have onward : Run.goOn (fuel + 1) more n (.infer s program k) r =
      Run.goOn fuel more n (.start (k d)) r' := by
    rw [Run.goOn, Run.goOn, Run.advance, run]
  rw [onward]
  exact ⟨False.elim, (h fuel (by omega) more (by omega) n level r' held).2⟩

/-- A run of a program that may infer others follows the tree of the program. -/
theorem follows_of_resolves {a : Action X (Strategies X T) K} {t : Tree X} (h : a.Resolves t) :
    Follows T False a t := by
  induction h with
  | exit v => exact follows_exit v
  | weight _ ih => exact follows_weight _ ih
  | draw _ ih => exact follows_draw ih
  | fail err =>
    intro e rest _
    exact explores_fail err e
  | display _ ih =>
    intro e rest others
    exact explores_display _ (ih e rest others)
  | infer infers _ ih =>
    intro e rest others
    exact explores_infer infers (ih e rest others)

end Enumeration

namespace Inference

/-- The enumeration of the program ends at any router, and its result is the given one. -/
def Enumerates (settings : Settings) (a : Action X (Strategies X T) K)
    (d : Result (Distribution X)) : Prop :=
  ∃ enough, ∀ fuel ≥ enough, ∀ r, ∃ r', enumerate fuel settings a r = some (d, r')

variable {settings : Settings} {a : Action X (Strategies X T) K}

theorem Enumerates.unique {d d' : Result (Distribution X)} (h : Enumerates settings a d)
    (h' : Enumerates settings a d') (r : Router X (Strategies X T) K) : d = d' := by
  obtain ⟨enough, run⟩ := h
  obtain ⟨enough', run'⟩ := h'
  obtain ⟨q, ends⟩ := run (max enough enough') (Nat.le_max_left ..) r
  obtain ⟨q', ends'⟩ := run' (max enough enough') (Nat.le_max_right ..) r
  rw [ends] at ends'
  exact congrArg Prod.fst (Option.some.inj ends')

/-- Inference by enumeration gives what depth-first search on the tree of the program does. -/
theorem infers_of_resolves {t : Tree X} (h : a.Resolves t) (settings : Settings) :
    Run.Infers (.enumeration settings) a (t.explore Scalar.zero 0 .empty).result := by
  have explored := Enumeration.explores_of_follows (Enumeration.follows_of_resolves h) settings
  obtain ⟨enough, run⟩ := Run.result_of_explores explored
  exact ⟨enough, fun fuel hf r => (run fuel hf r).1⟩

/-- Enumeration of a program gives what depth-first search on its tree does. -/
theorem enumerates_of_resolves {t : Tree X} (h : a.Resolves t) (settings : Settings) :
    Enumerates settings a (t.explore Scalar.zero 0 .empty).result := by
  obtain ⟨enough, run⟩ := infers_of_resolves h settings
  refine ⟨enough, fun fuel hf r => ?_⟩
  obtain ⟨s, r', inferred⟩ := run fuel hf r
  exact ⟨r', by rw [enumerate, inferred]⟩

end Inference

end Posterior
