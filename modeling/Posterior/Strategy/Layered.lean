import Posterior.Handler

/-!
# Layers around a strategy

A layer sees every effect that goes to a strategy and every answer that comes back, and changes
neither. One kind reports them as events, one counts them, and one records the effects.

## Main definitions

* `Counts` — how many effects of each kind were handled, and how many were rejected
* `RecordedEffect` — an effect as a recording keeps it
* `Layer` — the layers
* `Layered` — a strategy with layers around it
-/

namespace Posterior

/-- How many effects were handled, by kind, and how many were rejected. -/
structure Counts where
  /-- Choices handled. -/
  draws : Nat := 0
  /-- Constraints handled. -/
  weights : Nat := 0
  /-- Ends of paths handled. -/
  exits : Nat := 0
  /-- Effects rejected. -/
  errors : Nat := 0
  deriving DecidableEq, Repr

/-- Counts an effect as handled, or as rejected. -/
def Counts.record (c : Counts) (effect : Effect) (accepted : Bool) : Counts :=
  if accepted then
    match effect with
    | .draw => { c with draws := c.draws + 1 }
    | .weight => { c with weights := c.weights + 1 }
    | .exit => { c with exits := c.exits + 1 }
  else
    { c with errors := c.errors + 1 }

/-- An effect as a recording keeps it. -/
inductive RecordedEffect (X : Type) where
  /-- A choice. -/
  | draw (distribution : String) (params : List Value)
  /-- A soft constraint. -/
  | weight (logWeight : X)
  /-- The end of a path. -/
  | exit (value : Value)

/-- What a recording keeps of a step. -/
def Step.recorded {X K : Type} : Step X K → RecordedEffect X
  | draw _ d params => .draw d.name params
  | weight _ logWeight => .weight logWeight
  | exit v => .exit v

/-- The values of the ends of paths in a recording, in order. -/
def exitsOf {X : Type} : List (RecordedEffect X) → List Value
  | [] => []
  | .exit v :: rest => v :: exitsOf rest
  | _ :: rest => exitsOf rest

/-- The layers that can be put around a strategy. -/
inductive Layer (X : Type) where
  /-- Reports effects and answers under a tag. -/
  | trace (tag : String)
  /-- Counts effects. -/
  | metrics (counts : Counts)
  /-- Records effects, since the last start or clearing. -/
  | recording (effects : Array (RecordedEffect X))

/-- The tag of a tracing layer that was given none. -/
def Layer.defaultTag : String := "infer"

namespace Layer

variable {X K : Type}

/-- What a layer does before the strategy sees an effect. -/
def before (step : Step X K) : Layer X → Logged X (Layer X)
  | trace tag => do
    match step with
    | .draw _ d params => Logged.report (.observed tag (.choosing d.name params.length))
    | .weight _ logWeight => Logged.report (.observed tag (.weighting logWeight))
    | .exit v => Logged.report (.observed tag (.exiting v))
    return trace tag
  | metrics counts => pure (metrics counts)
  | recording effects => pure (recording (effects.push step.recorded))

/-- What a layer observes of the answer to an effect: a choice is always reported, a constraint
and the end of a path only if they were rejected. -/
def observation? (step : Step X K) (answer : Result (Resumption K)) : Option (Observation X) :=
  match step, answer with
  | .draw _ d _, .ok (.resume _ v) => some (.chosen d.name v)
  | .draw _ d _, .ok (.halt _) => some (.choiceHalted d.name)
  | .draw _ d _, .error e => some (.choiceFailed d.name e)
  | .weight _ logWeight, .error e => some (.weightFailed logWeight e)
  | .exit _, .error e => some (.exitFailed e)
  | _, .ok _ => none

/-- What a layer does after the strategy has answered. -/
def after (step : Step X K) (answer : Result (Resumption K)) : Layer X → Logged X (Layer X)
  | trace tag => do
    match observation? step answer with
    | some o => Logged.report (.observed tag o)
    | none => pure ()
    return trace tag
  | metrics counts => pure (metrics (counts.record step.effect answer.isOk))
  | recording effects => pure (recording effects)

/-- What a layer does before the strategy of the given name starts. -/
def starting (strategy : String) : Layer X → Logged X (Layer X)
  | trace tag => do
    Logged.report (.observed tag (.started strategy))
    return trace tag
  | metrics counts => pure (metrics counts)
  | recording _ => pure (recording #[])

/-- What a layer does after the strategy has given its result. -/
def finished (result : Result (Distribution X)) : Layer X → Logged X (Layer X)
  | trace tag => do
    match result with
    | .ok d => Logged.report (.observed tag (.finished d.name))
    | .error e => Logged.report (.observed tag (.finishFailed e))
    return trace tag
  | metrics counts => pure (metrics counts)
  | recording effects => pure (recording effects)

/-- Forgets what a recording holds. -/
def cleared : Layer X → Layer X
  | recording _ => recording #[]
  | l => l

end Layer

/-- A strategy with layers around it. -/
structure Layered (X : Type) (S : Type → Type) (K : Type) where
  /-- The layers, the outermost first. -/
  layers : List (Layer X) := []
  /-- The strategy inside. -/
  core : S K

namespace Layered

variable {X : Type} {S : Type → Type} {K : Type} [Strategy X S]

/-- An effect passes through the layers to the strategy, and the answer back through them. -/
def handle (ambient : Ambient X K) (step : Step X K) (core : S K) :
    List (Layer X) → Logged X (Result (Resumption K) × List (Layer X) × S K)
  | [] => do
    let (answer, core) ← Handler.handle ambient step core
    return (answer, [], core)
  | l :: ls => do
    let l ← l.before step
    let (answer, ls, core) ← handle ambient step core ls
    let l ← l.after step answer
    return (answer, l :: ls, core)

/-- The layers start from the outside, the strategy last. -/
def start (core : S K) : List (Layer X) → Logged X (List (Layer X) × S K)
  | [] => do
    let core ← Strategy.start core
    return ([], core)
  | l :: ls => do
    let l ← l.starting (Handler.name core)
    let (ls, core) ← start core ls
    return (l :: ls, core)

/-- The strategy gives its result, which passes back through the layers. -/
def finish (core : S K) : List (Layer X) → Logged X (Result (Distribution X) × List (Layer X) × S K)
  | [] => do
    let (result, core) ← Strategy.finish core
    return (result, [], core)
  | l :: ls => do
    let (result, ls, core) ← finish core ls
    let l ← l.finished result
    return (result, l :: ls, core)

end Layered

instance {X : Type} {S : Type → Type} [Strategy X S] : Strategy X (Layered X S) where
  name s := Handler.name s.core
  handle ambient step s := do
    let (answer, layers, core) ← Layered.handle ambient step s.core s.layers
    return (answer, ⟨layers, core⟩)
  start s := do
    let (layers, core) ← Layered.start s.core s.layers
    return ⟨layers, core⟩
  finish s := do
    let (result, layers, core) ← Layered.finish s.core s.layers
    return (result, ⟨layers, core⟩)

end Posterior
