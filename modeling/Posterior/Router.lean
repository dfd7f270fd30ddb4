import Posterior.Handler

/-!
# The router

The router knows the handlers that are in use, which of them effects go to at the moment, and how
many are installed. Installing a handler gives a scope; releasing the scope brings back what was
active before it, whatever happened in between. A handler at work, or held by somebody else, is
busy and accepts no effect.

## Main definitions

* `Router` — the handlers in use, the active one, the depth, and the events so far
* `Router.install`, `Router.release` — the scopes of handlers
* `Router.dispatch` — the answer of the active handler to an effect
* `Router.view` — what programs see of the router
-/

namespace Posterior

/-- A handler as the router knows it: a strategy, or a sampler. -/
inductive Installed (X : Type) (S : Type → Type) (K : Type) where
  /-- A strategy. -/
  | strategy (s : S K)
  /-- A sampler with its own source. -/
  | sampler (h : Sampler X K)

namespace Installed

variable {X : Type} {S : Type → Type} {K : Type} [Handler X S]

/-- The name of a handler. -/
def name : Installed X S K → String
  | strategy s => Handler.name s
  | sampler h => Handler.name h

/-- The answer of a handler. -/
def handle (ambient : Ambient X K) (step : Step X K) :
    Installed X S K → Logged X (Result (Resumption K) × Installed X S K)
  | strategy s => do
    let (answer, s) ← Handler.handle ambient step s
    return (answer, strategy s)
  | sampler h => do
    let (answer, h) ← Handler.handle ambient step h
    return (answer, sampler h)

end Installed

/-- A handler in use. -/
structure Cell (X : Type) (S : Type → Type) (K : Type) where
  /-- The handler. -/
  handler : Installed X S K
  /-- Whether it is at work or held. -/
  busy : Bool := false

/-- The name of a handler in use; that of a busy one cannot be read. -/
def Cell.name {X : Type} {S : Type → Type} {K : Type} [Handler X S] (c : Cell X S K) : String :=
  if c.busy then "<busy>" else c.handler.name

/-- The handlers in use and where effects go. -/
structure Router (X : Type) (S : Type → Type) (K : Type) where
  /-- The handlers in use, by number. -/
  cells : Array (Cell X S K) := #[]
  /-- The number of the handler that effects go to, if one is installed. -/
  active : Option Nat := none
  /-- How many handlers are installed. -/
  depth : Nat := 0
  /-- What choices are sampled from while no handler is installed. -/
  source : Source
  /-- The events so far. -/
  events : Array (Event X) := #[]

/-- The right to bring back what was active before a handler was installed. -/
structure Scope where
  /-- What was active before. -/
  previous : Option Nat
  /-- The depth at which the handler was installed, one for the outermost. -/
  depth : Nat
  /-- The name of the handler. -/
  name : String
  deriving DecidableEq, Repr

namespace Router

variable {X : Type} {S : Type → Type} {K : Type}

/-- Reports an event. -/
def report (r : Router X S K) (e : Event X) : Router X S K :=
  { r with events := r.events.push e }

/-- Reports events in order. -/
def reportAll (r : Router X S K) (es : List (Event X)) : Router X S K :=
  { r with events := r.events ++ es }

/-- The handler that effects go to, with its number. -/
def current (r : Router X S K) : Option (Nat × Cell X S K) :=
  match r.active with
  | none => none
  | some i =>
    match r.cells[i]? with
    | none => none
    | some c => some (i, c)

/-- Takes a handler into use, without installing it. -/
def add (r : Router X S K) (h : Installed X S K) : Nat × Router X S K :=
  (r.cells.size, { r with cells := r.cells.push { handler := h } })

/-- Marks a handler as busy, or as free. -/
def setBusy (r : Router X S K) (i : Nat) (busy : Bool) : Router X S K :=
  { r with cells := r.cells.modify i fun c => { c with busy := busy } }

section Names

variable [Handler X S]

/-- The name of a handler in use. -/
def nameOf (r : Router X S K) (i : Nat) : String :=
  match r.cells[i]? with
  | some c => c.name
  | none => "default"

/-- What programs see of the router. -/
def view (r : Router X S K) : RouterView where
  depth := r.depth
  name := match r.current with
    | some (_, c) => c.name
    | none => "default"
  isDefault := r.current.isNone

/-! ### Scopes -/

/-- Makes a handler in use the active one. -/
def install (r : Router X S K) (i : Nat) : Scope × Router X S K :=
  let scope : Scope := ⟨r.active, r.depth + 1, r.nameOf i⟩
  (scope, { r with active := some i, depth := scope.depth }.report
    (.installed scope.name scope.depth))

/-- Brings back what was active before a scope. -/
def release (r : Router X S K) (scope : Scope) : Router X S K :=
  -- A scope that is not the innermost is honoured as well.
  let r := if r.depth = scope.depth then r
    else r.report (.outOfOrder scope.name scope.depth r.depth)
  { r with active := scope.previous, depth := scope.depth - 1 }.report
    (.restored scope.name scope.depth)

/-! ### Effects -/

/-- What an effect is answered that goes to a busy handler. -/
def refusal : Result (Resumption K) := .error (.reentrant "active")

/-- What an effect is answered that a handler at work performs: it goes to the active handler, which
refuses it if it is busy. -/
def ambient (current : Option (Nat × Cell X S K)) (source : Source) : Ambient X K := fun step =>
  match current with
  | none => ⟨((⟨source⟩ : Sampler X K).handle step).1, [.dispatched "default" step.effect]⟩
  | some (_, c) =>
    if c.busy then pure refusal
    else
      let out := c.handler.handle (fun _ => pure refusal) step
      ⟨out.value.1, .dispatched c.handler.name step.effect :: out.events⟩

/-- Forwards an effect to the active handler, or samples from the router's source when there is
none. The handler is busy while it is at work. -/
def dispatch (r : Router X S K) (step : Step X K) : Result (Resumption K) × Router X S K :=
  match r.current with
  | none =>
    let out := (⟨r.source⟩ : Sampler X K).handle step
    (out.1, { r with source := out.2.source }.report (.dispatched "default" step.effect))
  | some (i, c) =>
    if c.busy then (refusal, r)
    else
      let out := c.handler.handle (ambient (some (i, { c with busy := true })) r.source) step
      let r := (r.report (.dispatched c.handler.name step.effect)).reportAll out.events
      -- The cell that is written back is free again.
      (out.value.1, { r with cells := r.cells.setIfInBounds i { handler := out.value.2 } })

end Names

end Router

end Posterior
