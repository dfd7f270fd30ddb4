import Posterior.Distribution.Basic

/-!
# Programs as suspended computations

A program never returns a value: it performs an effect and hands over the rest of itself as a
continuation. Nothing is said about how continuations are represented. A type of continuations is
any type whose members answer a value with the action that comes next, so programs may run
forever.

Between two effects a program may do what concerns the runtime rather than its handler: display a
value, look at the router, infer another program, or run one under the active handler.

## Main definitions

* `Step` — an effect together with its continuation
* `Resumption` — what a handler answers to an effect
* `Action` — what a computation does next
* `Resumable` — types of continuations
* `Action.draw`, `Action.weight`, `Action.condition` — the effects as actions
-/

namespace Posterior

/-- An effect together with the rest of the program, which waits for the value it gives. -/
inductive Step (X K : Type) where
  /-- Choose a value from a distribution. -/
  | draw (k : K) (distribution : Distribution X) (params : List Value)
  /-- Multiply the probability of the path by the exponential of a number. -/
  | weight (k : K) (logWeight : X)
  /-- Finish the path with a value. -/
  | exit (value : Value)

/-- The effect that a step performs. -/
def Step.effect {X K : Type} : Step X K → Effect
  | draw .. => .draw
  | weight .. => .weight
  | exit _ => .exit

/-- What a handler answers to an effect. -/
inductive Resumption (K : Type) where
  /-- Go on with that continuation and value. -/
  | resume (k : K) (value : Value)
  /-- Stop, with the program's value if the handler gives it back. -/
  | halt (value : Option Value)

/-- What a program sees of the router. -/
structure RouterView where
  /-- How many handlers are installed. -/
  depth : Nat
  /-- The name of the handler that effects go to. -/
  name : String
  /-- Whether no handler is installed. -/
  isDefault : Bool
  deriving DecidableEq, Repr

/-- What a computation does next, over strategies `S` and continuations `K`. -/
inductive Action (X : Type) (S : Type → Type) (K : Type) where
  /-- Perform an effect. -/
  | perform (step : Step X K)
  /-- Fail. -/
  | fail (error : Failure)
  /-- Display a value, then go on. -/
  | display (value : Value) (next : K)
  /-- Look at the router, then go on. -/
  | probe (next : RouterView → K)
  /-- Infer a program under a strategy, then go on with the distribution. -/
  | infer (strategy : S K) (program : K) (next : Result (Distribution X) → K)
  /-- Run a program under the active handler to the value it gives back, then go on with that. -/
  | run (program : K) (next : Result Value → K)
  /-- Drive an effect, and all that it leads to, under the active handler, then go on. -/
  | drive (step : Step X K) (next : Result (Option Value) → K)
  /-- Forward one effect to the active handler, then go on with its answer. -/
  | dispatch (step : Step X K) (next : Result (Resumption K) → K)

/-- Types of continuations. A program is a continuation that waits for the unit value, and so is
what comes after an action other than an effect. -/
class Resumable (X : Type) (S : Type → Type) (K : Type) where
  /-- What a continuation does with a value. -/
  resume : K → Value → Action X S K

namespace Action

variable {X : Type} {S : Type → Type} {K : Type}

/-- What a suspended computation does first. -/
def start [Resumable X S K] (k : K) : Action X S K := Resumable.resume k .unit

/-- A random choice. -/
def draw (k : K) (d : Distribution X) (params : List Value) : Action X S K :=
  .perform (.draw k d params)

/-- A soft constraint: the path counts with the exponential of the given number. -/
def weight (k : K) (logWeight : X) : Action X S K := .perform (.weight k logWeight)

/-- A hard constraint: the path counts only if it holds. -/
def condition [Scalar X] (k : K) (holds : Bool) : Action X S K :=
  weight k (if holds then Scalar.zero else Scalar.negInf)

/-- Goes on with a value, or fails. -/
def continueWith [Resumable X S K] (k : K) : Result Value → Action X S K
  | .ok v => Resumable.resume k v
  | .error e => .fail e

end Action

end Posterior
