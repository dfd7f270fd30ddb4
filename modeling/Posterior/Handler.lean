import Posterior.Event
import Posterior.Program

/-!
# Handlers and strategies

A handler gives meaning to the effects of a program. It never resumes a continuation itself: it
answers with a resumption, and whoever drives the program acts on that. A strategy is a handler
with a lifecycle, which turns what it observed during a run into a distribution.

Handlers are state. A family `H : Type → Type` gives the states of a kind of handler over each
type of continuations, so that a handler can keep continuations but cannot look into them.

## Main definitions

* `Ambient` — what an effect performed by a handler at work is answered
* `Handler` — families of handlers
* `Strategy` — families of strategies
* `Sampler` — the handler that samples each choice, in effect when no strategy is installed
-/

namespace Posterior

/-- What an effect is answered that a handler performs while it is at work. -/
abbrev Ambient (X K : Type) := Step X K → Logged X (Result (Resumption K))

/-- Families of handlers. -/
class Handler (X : outParam Type) (H : Type → Type) where
  /-- The name used in messages. -/
  name {K : Type} : H K → String
  /-- Answers an effect. -/
  handle {K : Type} : Ambient X K → Step X K → H K → Logged X (Result (Resumption K) × H K)

/-- Families of strategies. -/
class Strategy (X : outParam Type) (S : Type → Type) extends Handler X S where
  /-- Forgets what earlier runs left behind. -/
  start {K : Type} : S K → Logged X (S K)
  /-- Gives the result of a run. -/
  finish {K : Type} : S K → Logged X (Result (Distribution X) × S K)

/-- The handler that samples each choice from a source. It gives the program's value back and
rejects soft constraints. -/
structure Sampler (X K : Type) where
  /-- What choices are sampled from. -/
  source : Source

/-- How a sampler answers an effect. -/
def Sampler.handle {X K : Type} (step : Step X K) (h : Sampler X K) :
    Result (Resumption K) × Sampler X K :=
  match step with
  | .draw k d params =>
    let (drawn, source) := d.sample params h.source
    (drawn.map (.resume k), ⟨source⟩)
  | .weight _ _ => (.error .noActiveInference, h)
  | .exit v => (.ok (.halt (some v)), h)

instance {X : Type} : Handler X (Sampler X) where
  name _ := "default"
  handle _ step h := pure (h.handle step)

end Posterior
