import Posterior.Handler

/-!
# Forward sampling

Runs a program once and samples each choice on the spot. Soft constraints are rejected, because
nothing is normalized that they could apply to. The result is the point mass at the program's
value.

## Main definitions

* `ForwardSampling` — the strategy
-/

namespace Posterior

/-- The strategy that runs a program once and samples each choice. -/
structure ForwardSampling (X K : Type) where
  /-- What choices are sampled from. -/
  source : Source
  /-- The value of the program, once it has ended. -/
  result : Option Value := none
  /-- How many choices have been sampled. -/
  draws : Nat := 0

namespace ForwardSampling

variable {X K : Type} [Scalar X]

/-- How forward sampling answers an effect. -/
def handle (step : Step X K) (h : ForwardSampling X K) :
    Logged X (Result (Resumption K) × ForwardSampling X K) :=
  match step with
  | .draw k d params =>
    match d.sample params h.source with
    -- Random words that a failed draw has taken are gone.
    | (.error e, source) => pure (.error e, { h with source := source })
    | (.ok v, source) => do
      Logged.report (.sampled d.name v)
      return (.ok (.resume k v), { h with source := source, draws := h.draws + 1 })
  | .weight _ logWeight =>
    pure (.error (.unsupportedEffect "forward" .weight
      ("cannot apply weight " ++ Scalar.text logWeight ++ " without normalization")), h)
  | .exit v => do
    Logged.report (.programExited v h.draws)
    return (.ok (.halt none), { h with result := some v })

/-- The point mass at the value of the program, which is taken out. -/
def finish (h : ForwardSampling X K) : Result (Distribution X) × ForwardSampling X K :=
  match h.result with
  | some v => (.ok (.delta v), { h with result := none })
  | none => (.error (.protocolViolation "forward sampling finished without an exit"), h)

end ForwardSampling

instance {X : Type} [Scalar X] : Strategy X (ForwardSampling X) where
  name _ := "forward"
  handle _ step h := h.handle step
  start h := pure { h with result := none, draws := 0 }
  finish h := pure h.finish

end Posterior
