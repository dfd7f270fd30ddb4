import Mathlib.Data.List.Forall2
import Mathlib.Tactic.Common
import Posterior.Strategy.Enumeration

/-!
# Effect trees

A program whose continuations only perform effects, display values or fail, and whose paths are all
finite, is a tree: a choice has a subtree for each value. The tree says all that enumeration can
find out about the program, and depth-first recursion on it is what enumeration is measured by. The
recursion knows neither continuations nor a stack.

## Main definitions

* `Tree` — effect trees
* `Action.Unfolds` — the tree of a computation
* `Tree.program` — the computation that a tree describes
* `Tree.explore` — depth-first search by recursion

## Main results

* `Tree.unfolds_program` — every tree is the tree of a program
* `Enumeration.split_eq` — the alternatives of a choice are its scored children
-/

namespace Posterior

namespace Distribution

variable {X : Type} {d : Distribution X} {params : List Value}

/-- The values that a choice goes on with. -/
def listed (d : Distribution X) (params : List Value) : List Value :=
  match d.support params with
  | .ok vs => vs
  | .error _ => []

theorem listed_of_support {vs : List Value} (h : d.support params = .ok vs) :
    d.listed params = vs := by
  rw [listed, h]

end Distribution

/-- A program as the tree of its effects. -/
inductive Tree (X : Type) where
  /-- A choice, with a subtree for each value. -/
  | draw (distribution : Distribution X) (params : List Value) (next : Value → Tree X)
  /-- A soft constraint. -/
  | weight (logWeight : X) (next : Tree X)
  /-- The end of a path. -/
  | exit (value : Value)
  /-- A failure of the program. -/
  | fail (error : Failure)

/-- The computation performs the effects of the tree and nothing else, displays of values apart. Of
a choice only the values in its support count, so a program whose paths end for those has a tree. -/
inductive Action.Unfolds {X : Type} {S : Type → Type} {K : Type} [Resumable X S K] :
    Action X S K → Tree X → Prop where
  | draw {k d params next} :
    (∀ vs, d.support params = .ok vs → ∀ v ∈ vs, Unfolds (Resumable.resume k v) (next v)) →
      Unfolds (.draw k d params) (.draw d params next)
  | weight {k l t} : Unfolds (Resumable.resume k .unit) t → Unfolds (.weight k l) (.weight l t)
  | exit (v : Value) : Unfolds (.perform (.exit v)) (.exit v)
  | fail (e : Failure) : Unfolds (.fail e) (.fail e)
  | display {v k t} : Unfolds (.start k) t → Unfolds (.display v k) t

/-- The rest of a program that is given as a tree: a subtree for each value. -/
structure Tree.Rest (X : Type) where
  /-- The subtree that goes on with a value. -/
  next : Value → Tree X

/-- The program that performs the effects of a tree. -/
def Tree.program {X : Type} {S : Type → Type} : Tree X → Action X S (Tree.Rest X)
  | draw d params next => .draw ⟨next⟩ d params
  | weight l t => .weight ⟨fun _ => t⟩ l
  | exit v => .perform (.exit v)
  | fail e => .fail e

instance {X : Type} {S : Type → Type} : Resumable X S (Tree.Rest X) where
  resume k v := (k.next v).program

/-- Every tree is the tree of a program. -/
theorem Tree.unfolds_program {X : Type} {S : Type → Type} (t : Tree X) :
    (t.program : Action X S (Tree.Rest X)).Unfolds t := by
  induction t with
  | draw d params next ih => exact .draw fun _ _ v _ => ih v
  | weight l t ih => exact .weight ih
  | exit v => exact .exit v
  | fail e => exact .fail e

/-- An effect without its continuation. -/
def Step.forget {X K : Type} : Step X K → Step X Unit
  | draw _ d params => .draw () d params
  | weight _ l => .weight () l
  | exit v => .exit v

/-- An effect that a search has reached. -/
structure Visit (X : Type) where
  /-- The effect. -/
  step : Step X Unit
  /-- The score of the path to it. -/
  score : X
  /-- How many alternatives wait to be explored. -/
  waiting : Nat

/-- What a search has come across: effects in order, and then the marginal or the first failure. -/
structure Exploration (X : Type) where
  /-- The effects, up to the first failure. -/
  visits : List (Visit X)
  /-- The marginal of the paths, unless something has failed. -/
  outcome : Result (Marginal X)

namespace Exploration

variable {X : Type}

/-- A visit before an exploration. -/
def after (v : Visit X) (x : Exploration X) : Exploration X := ⟨v :: x.visits, x.outcome⟩

/-- What the exploration says about the program: the first failure, or the normalized marginal as a
distribution. -/
def result [Scalar X] (x : Exploration X) : Result (Distribution X) :=
  x.outcome.bind fun m => m.normalized.map Marginal.toDistribution

/-- All that a search is asked: the effects, and then for the distribution of the marginal. -/
def trace (x : Exploration X) : List (Visit X ⊕ Marginal X) :=
  x.visits.map .inl ++ x.outcome.toOption.toList.map .inr

/-- One exploration and then another, which goes on from the marginal of the first. -/
def andThen (x : Exploration X) (f : Marginal X → Exploration X) : Exploration X :=
  match x.outcome with
  | .error e => ⟨x.visits, .error e⟩
  | .ok m => ⟨x.visits ++ (f m).visits, (f m).outcome⟩

/-- Nothing more to explore. -/
def done (m : Marginal X) : Exploration X := ⟨[], .ok m⟩

@[simp] theorem andThen_after (v : Visit X) (x : Exploration X)
    (f : Marginal X → Exploration X) : (x.after v).andThen f = (x.andThen f).after v := by
  unfold andThen after
  split <;> simp_all

@[simp] theorem done_andThen (m : Marginal X) (f : Marginal X → Exploration X) :
    (done m).andThen f = f m := rfl

@[simp] theorem andThen_done (x : Exploration X) : x.andThen done = x := by
  obtain ⟨visits, outcome⟩ := x
  cases outcome with
  | error e => rfl
  | ok m => simp [andThen, done]

theorem andThen_assoc (x : Exploration X) (f g : Marginal X → Exploration X) :
    (x.andThen f).andThen g = x.andThen fun m => (f m).andThen g := by
  obtain ⟨visits, outcome⟩ := x
  cases outcome with
  | error e => rfl
  | ok m =>
    simp only [andThen]
    cases (f m).outcome <;> simp

end Exploration

namespace Tree

variable {X : Type} [Scalar X]

/-- Values with the scores of their paths, up to the first value that cannot be scored. -/
def scored (d : Distribution X) (params : List Value) (score : X) (vs : List Value) :
    Result (List (Value × X)) :=
  vs.mapM fun v => do
    let l ← d.score params v
    return (v, score + l)

/-- The values of a choice with the scores of their paths, in the order of the support. The support
has to be there, then the log-probabilities; the support has to be listed, and then every value has
to be scored. -/
def children (d : Distribution X) (params : List Value) (score : X) :
    Result (List (Value × X)) :=
  if !d.has .support then
    .error (.unsupportedEffect "enumerate" .draw
      ("distribution " ++ d.name ++ " cannot list its support"))
  else if !d.has .score then
    .error (.missingCapability d.name .score)
  else do
    let vs ← d.support params
    scored d params score vs

/-- Explores one child after another, while those behind it wait in addition to the given number. -/
def exploreAll (explore : Value → X → Nat → Marginal X → Exploration X) (waiting : Nat) :
    List (Value × X) → Marginal X → Exploration X
  | [], m => .done m
  | (v, score) :: rest, m =>
    (explore v score (rest.length + waiting) m).andThen (exploreAll explore waiting rest)

/-- Depth-first search: a path that ends adds its score to the marginal, a constraint adds to the
score, and a choice explores the values of its support from the last to the first. -/
def explore : Tree X → X → Nat → Marginal X → Exploration X
  | exit v, score, waiting, m =>
    .after ⟨.exit v, score, waiting⟩ (.done (m.addLog v score))
  | weight l t, score, waiting, m =>
    .after ⟨.weight () l, score, waiting⟩ <|
      if Scalar.isNaN l || Scalar.eq l Scalar.posInf then
        ⟨[], .error (.arithmetic
          ("log-weight " ++ Scalar.text l ++ " is not a finite number or -inf"))⟩
      else t.explore (score + l) waiting m
  | draw d params next, score, waiting, m =>
    .after ⟨.draw () d params, score, waiting⟩ <|
      match children d params score with
      | .error e => ⟨[], .error e⟩
      | .ok cs => exploreAll (fun v => (next v).explore) waiting cs.reverse m
  | fail e, _, _, _ => ⟨[], .error e⟩

section Children

variable {d : Distribution X} {params : List Value} {score : X}

theorem scored_cons (v : Value) (vs : List Value) :
    scored d params score (v :: vs) =
      match d.score params v with
      | .error e => .error e
      | .ok l => (scored d params score vs).map ((v, score + l) :: ·) := by
  unfold scored
  rw [List.mapM_cons]
  cases d.score params v with
  | error e => rfl
  | ok l =>
    cases vs.mapM (m := Result) fun v => do
      let l ← d.score params v
      return (v, score + l) <;> rfl

theorem scored_eq_ok_iff {vs : List Value} {cs : List (Value × X)} :
    scored d params score vs = .ok cs ↔
      List.Forall₂ (fun v c => ∃ l, d.score params v = .ok l ∧ c = (v, score + l)) vs cs := by
  induction vs generalizing cs with
  | nil =>
    rw [List.forall₂_nil_left_iff]
    exact ⟨fun h => (Except.ok.inj h).symm, fun h => h ▸ rfl⟩
  | cons v vs ih =>
    rw [scored_cons, List.forall₂_cons_left_iff]
    cases d.score params v with
    | error e => simp
    | ok l =>
      constructor
      · intro h
        cases rest : scored d params score vs with
        | error e => rw [rest] at h; cases h
        | ok cs' =>
          rw [rest] at h
          obtain rfl : (v, score + l) :: cs' = cs := Except.ok.inj h
          exact ⟨_, _, ⟨l, rfl, rfl⟩, ih.1 rest, rfl⟩
      · rintro ⟨c, cs', ⟨l', same, rfl⟩, rest, rfl⟩
        obtain rfl := Except.ok.inj same
        simp only [ih.2 rest]
        rfl

/-- A choice has children when its support can be listed and scored, one child for each value. -/
theorem children_eq_ok_iff {cs : List (Value × X)} :
    children d params score = .ok cs ↔ d.has .score = true ∧ ∃ vs, d.support params = .ok vs ∧
      List.Forall₂ (fun v c => ∃ l, d.score params v = .ok l ∧ c = (v, score + l)) vs cs := by
  unfold children
  simp only [← scored_eq_ok_iff]
  cases support : d.has .support with
  | false =>
    -- A support that is absent cannot be listed either, so both sides are false.
    have absent : d.support? = none := by simpa [Distribution.has] using support
    simp [Distribution.support, absent]
  | true =>
    cases d.has .score with
    | false => simp
    | true =>
      cases d.support params with
      | error e => simp [bind, Except.bind]
      | ok vs => simp [bind, Except.bind]

/-- The children of a choice are the values of its support, in order. -/
theorem support_of_children {cs : List (Value × X)} (h : children d params score = .ok cs) :
    d.support params = .ok (cs.map Prod.fst) := by
  obtain ⟨-, vs, support, scored⟩ := children_eq_ok_iff.1 h
  have same : List.Forall₂ (· = ·) vs (cs.map Prod.fst) := by
    -- Each child carries the value that it was scored for.
    refine List.forall₂_map_right_iff.2 (scored.imp ?_)
    rintro v c ⟨l, -, rfl⟩
    rfl
  rw [List.forall₂_eq_eq_eq] at same
  rw [support, same]

end Children

end Tree

/-! ### The alternatives of a choice -/

namespace Enumeration

variable {X K : Type} [Scalar X]

/-- The path that waits at a child. -/
def alternative (k : K) (child : Value × X) : Alternative X K := ⟨k, child.1, child.2⟩

theorem alternatives_eq (k : K) (d : Distribution X) (params : List Value) (score : X)
    (vs : List Value) :
    alternatives k d params score vs =
      (Tree.scored d params score vs).map (List.map (alternative k)) := by
  induction vs with
  | nil => rfl
  | cons v vs ih =>
    rw [alternatives, Tree.scored_cons]
    cases d.score params v with
    | error e => rfl
    | ok l =>
      simp only [ih]
      cases Tree.scored d params score vs <;> rfl

/-- The alternatives of a choice are its scored children, or the same failure. -/
theorem split_eq (k : K) (d : Distribution X) (params : List Value) (score : X) :
    split k d params score = (Tree.children d params score).map (List.map (alternative k)) := by
  unfold split Tree.children
  cases d.has .support with
  | false => rfl
  | true =>
    cases scored : d.has .score with
    | false => simp [Distribution.require, scored]; rfl
    | true =>
      simp only [if_true, Bool.not_true, Bool.false_eq_true, if_false, Distribution.require, scored]
      cases d.support params with
      | error e => rfl
      | ok vs => exact alternatives_eq k d params score vs

end Enumeration

end Posterior
