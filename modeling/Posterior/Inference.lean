import Posterior.Run
import Posterior.Settings
import Posterior.Strategy.Builtin
import Posterior.Strategy.Layered

/-!
# Inference

Inferring the distribution of a program's value with the strategies of this library, for its own
sake or as a step of a larger program that goes on with the distribution.

## Main definitions

* `Strategies` — the strategies of programs: those of this library or of another family, with layers
* `Inference.enumerate`, `Inference.sample` — the distribution of a program's value
* `Inference.enumerateThen`, `Inference.sampleThen` — what comes after, up to its next effect
-/

namespace Posterior

/-- The strategies of programs: those of this library or of the family `T`, with layers around
them. -/
abbrev Strategies (X : Type) (T : Type → Type) : Type → Type := Layered X (Builtin X T)

/-- Enumeration, without layers. -/
def Strategies.enumeration {X : Type} {T : Type → Type} {K : Type} [Scalar X] (s : Settings) :
    Strategies X T K :=
  { core := .enumeration s.enumeration }

/-- Forward sampling, without layers; without a seed it draws from the given source. -/
def Strategies.sampling {X : Type} {T : Type → Type} {K : Type} [Scalar X] (s : Settings)
    (unseeded : Source) : Strategies X T K :=
  { core := .sampling (s.sampling unseeded) }

namespace Inference

variable {X : Type} {T : Type → Type} {K : Type} [Scalar X] [Strategy X T]
  [Resumable X (Strategies X T) K]

/-- The distribution of a program's value over all of its paths. -/
def enumerate (fuel : Nat) (s : Settings) (program : Action X (Strategies X T) K)
    (r : Router X (Strategies X T) K) :
    Option (Result (Distribution X) × Router X (Strategies X T) K) :=
  match Run.infer fuel (.enumeration s) program r with
  | none => none
  | some (d, _, r) => some (d, r)

/-- The point mass at the value of one sampled path of a program. -/
def sample (fuel : Nat) (s : Settings) (unseeded : Source) (program : Action X (Strategies X T) K)
    (r : Router X (Strategies X T) K) :
    Option (Result (Distribution X) × Router X (Strategies X T) K) :=
  match Run.infer fuel (.sampling s unseeded) program r with
  | none => none
  | some (d, _, r) => some (d, r)

/-- Enumerates a program with default settings and goes on with its distribution. -/
def enumerateThen (fuel : Nat) (program : Action X (Strategies X T) K)
    (next : Distribution X → Action X (Strategies X T) K) (r : Router X (Strategies X T) K) :
    Option (Result (Step X K) × Router X (Strategies X T) K) :=
  Run.inferThen fuel (.enumeration {}) program next r

/-- Samples a program with default settings and goes on with its distribution. -/
def sampleThen (fuel : Nat) (unseeded : Source) (program : Action X (Strategies X T) K)
    (next : Distribution X → Action X (Strategies X T) K) (r : Router X (Strategies X T) K) :
    Option (Result (Step X K) × Router X (Strategies X T) K) :=
  Run.inferThen fuel (.sampling {} unseeded) program next r

end Inference

end Posterior
