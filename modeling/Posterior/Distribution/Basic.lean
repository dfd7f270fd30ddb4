import Posterior.Random.Source
import Posterior.Value.Text

/-!
# Distributions

A distribution carries up to three functions of a parameter list: one that draws a value, one that
gives the log-probability of a value, and one that lists the values with positive probability. What
needs a function that is absent fails and says so.

## Main definitions

* `Distribution` — a name and up to three functions
* `Distribution.has`, `Distribution.require` — which of them are present
* `Distribution.sample`, `Distribution.score`, `Distribution.support` — using them
* `Distribution.delta` — the point mass at a value
-/

namespace Posterior

/-- A named distribution with up to three functions of its parameters. -/
structure Distribution (X : Type) where
  /-- The name, used in messages. -/
  name : String
  /-- Draws a value. -/
  sample? : Option (List Value → Source → Result Value × Source) := none
  /-- The log-probability of a value. -/
  score? : Option (List Value → Value → Result X) := none
  /-- The values with positive probability. -/
  support? : Option (List Value → Result (List Value)) := none

namespace Distribution

variable {X : Type}

/-- Whether a function is present. -/
def has (d : Distribution X) : Capability → Bool
  | .sample => d.sample?.isSome
  | .score => d.score?.isSome
  | .support => d.support?.isSome

/-- Fails for the first of the functions that is absent. -/
def require (d : Distribution X) : List Capability → Result Unit
  | [] => .ok ()
  | c :: cs => if d.has c then d.require cs else .error (.missingCapability d.name c)

/-- Draws a value from a source. -/
def sample (d : Distribution X) (params : List Value) (source : Source) : Result Value × Source :=
  match d.sample? with
  | some f => f params source
  | none => (.error (.missingCapability d.name .sample), source)

/-- The log-probability of a value. -/
def score (d : Distribution X) (params : List Value) (v : Value) : Result X :=
  match d.score? with
  | some f => f params v
  | none => .error (.missingCapability d.name .score)

/-- The values with positive probability. -/
def support (d : Distribution X) (params : List Value) : Result (List Value) :=
  match d.support? with
  | some f => f params
  | none => .error (.missingCapability d.name .support)

/-- The values with positive probability, each with its log-probability or the failure to give it.
-/
def listing (d : Distribution X) (params : List Value) : Result (List (Value × Result X)) :=
  (d.support params).map fun vs => vs.map fun v => (v, d.score params v)

/-- The point mass at a value. -/
def delta [Scalar X] (v : Value) : Distribution X where
  name := "delta"
  sample? := some fun _ source => (.ok v, source)
  score? := some fun _ u => .ok (if u == v then Scalar.zero else Scalar.negInf)
  support? := some fun _ => .ok [v]

/-- One field of a structure's text. -/
def fieldText (name : String) (present : Bool) : String :=
  ", " ++ name ++ ": " ++ if present then "true" else "false"

/-- The text of a distribution: its name and which functions it carries. -/
def text (d : Distribution X) : String :=
  "Distribution \x7b name: " ++ Text.quoted d.name ++ fieldText "sample" (d.has .sample) ++
    fieldText "score" (d.has .score) ++ fieldText "support" (d.has .support) ++ " \x7d"

end Distribution

end Posterior
