import Posterior.Strategy.Enumeration
import Posterior.Strategy.ForwardSampling

/-!
# Strategies side by side

The two strategies of this library, and those of any other family, as one family, so that programs
can use all of them.

## Main definitions

* `Builtin` — enumeration, forward sampling, or a strategy of another family
* `NoOther` — the family without strategies
-/

namespace Posterior

/-- Enumeration, forward sampling, or a strategy of the family `T`. -/
inductive Builtin (X : Type) (T : Type → Type) (K : Type) where
  /-- Enumeration. -/
  | enumeration (s : Enumeration X K)
  /-- Forward sampling. -/
  | sampling (s : ForwardSampling X K)
  /-- A strategy of the other family. -/
  | other (s : T K)

instance {X : Type} {T : Type → Type} [Scalar X] [Strategy X T] : Strategy X (Builtin X T) where
  name
    | .enumeration s => Handler.name s
    | .sampling s => Handler.name s
    | .other s => Handler.name s
  handle ambient step
    | .enumeration s => do
      let (answer, s) ← Handler.handle ambient step s
      return (answer, .enumeration s)
    | .sampling s => do
      let (answer, s) ← Handler.handle ambient step s
      return (answer, .sampling s)
    | .other s => do
      let (answer, s) ← Handler.handle ambient step s
      return (answer, .other s)
  start
    | .enumeration s => return .enumeration (← Strategy.start s)
    | .sampling s => return .sampling (← Strategy.start s)
    | .other s => return .other (← Strategy.start s)
  finish
    | .enumeration s => do
      let (result, s) ← Strategy.finish s
      return (result, .enumeration s)
    | .sampling s => do
      let (result, s) ← Strategy.finish s
      return (result, .sampling s)
    | .other s => do
      let (result, s) ← Strategy.finish s
      return (result, .other s)

/-- The family without strategies. -/
inductive NoOther (X K : Type) : Type

instance {X : Type} : Strategy X (NoOther X) where
  name s := nomatch s
  handle _ _ s := nomatch s
  start s := nomatch s
  finish s := nomatch s

end Posterior
