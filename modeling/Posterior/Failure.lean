/-!
# Failures

Everything that can go wrong while a program runs or a distribution is queried, as causes. The
wording of each cause is fixed by `Failure.message`.

## Main definitions

* `Effect` — the three effects of a program
* `Capability` — the three functions of a distribution
* `Failure` — the causes of failure, with `Failure.message`
-/

namespace Posterior

/-- The effects a program performs. -/
inductive Effect where
  /-- A random choice. -/
  | draw
  /-- A soft constraint. -/
  | weight
  /-- The end of a path. -/
  | exit
  deriving DecidableEq, Repr

/-- The name of an effect. -/
def Effect.name : Effect → String
  | draw => "draw"
  | weight => "weight"
  | exit => "exit"

/-- The functions a distribution may carry. -/
inductive Capability where
  /-- Drawing a value. -/
  | sample
  /-- The log-probability of a value. -/
  | score
  /-- The values with positive probability. -/
  | support
  deriving DecidableEq, Repr

/-- The name of a capability. -/
def Capability.name : Capability → String
  | sample => "sample"
  | score => "score"
  | support => "support"

/-- The causes of failure. -/
inductive Failure where
  /-- A soft constraint outside of any inference. -/
  | noActiveInference
  /-- A handler that has no meaning for an effect. -/
  | unsupportedEffect (strategy : String) (effect : Effect) (reason : String)
  /-- A distribution without the function that is needed. -/
  | missingCapability (distribution : String) (capability : Capability)
  /-- Parameters that a distribution does not accept. -/
  | invalidParams (distribution : String) (reason : String)
  /-- A value of the wrong kind. -/
  | typeMismatch (operation : String) (expected : String) (found : String)
  /-- An arithmetic operation without a result. -/
  | arithmetic (reason : String)
  /-- A marginal with nothing to normalize. -/
  | zeroMass
  /-- A handler that received an effect while handling another. -/
  | reentrant (handler : String)
  /-- Calls in an order that the protocol between program and handler forbids. -/
  | protocolViolation (reason : String)
  deriving DecidableEq, Repr

/-- The wording of a failure. -/
def Failure.message : Failure → String
  | noActiveInference => "weight effect used outside of any inference strategy"
  | unsupportedEffect strategy effect reason =>
    strategy ++ " cannot handle the " ++ effect.name ++ " effect: " ++ reason
  | missingCapability distribution capability =>
    "distribution " ++ distribution ++ " has no " ++ capability.name ++ " function"
  | invalidParams distribution reason =>
    "invalid parameters for " ++ distribution ++ ": " ++ reason
  | typeMismatch operation expected found =>
    "type mismatch in " ++ operation ++ ": expected " ++ expected ++ ", found " ++ found
  | arithmetic reason => "arithmetic error: " ++ reason
  | zeroMass => "cannot normalize a marginal with zero total mass"
  | reentrant handler => "handler " ++ handler ++ " was re-entered while handling an effect"
  | protocolViolation reason => "protocol violation: " ++ reason

/-- A result or the cause why there is none. -/
abbrev Result (α : Type) : Type := Except Failure α

/-- What is made of a result is there if the result is. -/
theorem map_eq_ok_iff {α β : Type} {f : α → β} {x : Result α} {b : β} :
    x.map f = .ok b ↔ ∃ a, x = .ok a ∧ f a = b := by
  cases x <;> simp [Except.map]

/-- What is made of a result does not fail by itself. -/
theorem map_eq_error_iff {α β : Type} {f : α → β} {x : Result α} {e : Failure} :
    x.map f = .error e ↔ x = .error e := by
  cases x <;> simp [Except.map]

end Posterior
