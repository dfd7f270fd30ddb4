import Posterior.Router

/-!
# Running programs

A program is run by forwarding each of its effects to the active handler and acting on the answer,
until a handler halts the run. Inference installs a strategy for the length of a run and asks it
for the result afterwards; what was active before is brought back first, also when the program
fails.

A handler may resume continuations for ever, so each function takes fuel and gives nothing when it
runs out. More fuel never changes an answer.

## Main definitions

* `Run.advance` — a computation up to its next effect
* `Run.drive` — an effect and all that it leads to, up to the halt
* `Run.run` — a program under the active handler, to the value it gives back
* `Run.infer` — a program under a strategy, to a distribution
-/

namespace Posterior.Run

variable {X : Type} {S : Type → Type} {K : Type} [Strategy X S] [Resumable X S K]

/-- The failure of a run whose value the active handler has kept. -/
def consumed (name : String) : Failure :=
  .protocolViolation ("program value was consumed by the " ++ name ++ " handler")

/-- The failure of an inference whose strategy has given the value back. -/
def returned (name : String) (v : Value) : Failure :=
  .protocolViolation (name ++ " halted with a value it should have consumed: " ++ v.text)

/-- The value that a run gives back. -/
def valueOf (r : Router X S K) : Result (Option Value) → Result Value
  | .error e => .error e
  | .ok (some v) => .ok v
  | .ok none => .error (consumed r.view.name)

/-- What is left of an inference once its program has halted: the strategy is asked for the result,
unless the program failed or the strategy gave the value back. -/
def conclude (name : String) (strategy : S K) (outcome : Result (Option Value)) (r : Router X S K) :
    Result (Distribution X) × S K × Router X S K :=
  match outcome with
  | .error e => (.error e, strategy, r.report (.aborted name e))
  | .ok (some v) => (.error (returned name v), strategy, r)
  | .ok none =>
    let out := Strategy.finish strategy
    (out.value.1, out.value.2, (r.reportAll out.events).report (.concluded name))

/-- The strategy in a cell, or the given one if the cell holds none. -/
def strategyAt (r : Router X S K) (i : Nat) (default : S K) : S K :=
  match r.cells[i]? with
  | some ⟨.strategy s, _⟩ => s
  | _ => default

mutual

/-- A computation up to its next effect. -/
def advance : Nat → Action X S K → Router X S K → Option (Result (Step X K) × Router X S K)
  | 0, _, _ => none
  | fuel + 1, action, r =>
    match action with
    | .perform step => some (.ok step, r)
    | .fail e => some (.error e, r)
    | .display v k => advance fuel (.start k) (r.report (.displayed v))
    | .probe k => advance fuel (.start (k r.view)) r
    | .infer strategy program k =>
      match infer fuel strategy (.start program) r with
      | none => none
      | some (d, _, r) => advance fuel (.start (k d)) r
    | .run program k =>
      match complete fuel (.start program) r with
      | none => none
      | some (outcome, r) => advance fuel (.start (k (valueOf r outcome))) r
    | .drive step k =>
      match drive fuel 0 step r with
      | none => none
      | some (outcome, r) => advance fuel (.start (k outcome)) r
    | .dispatch step k =>
      let (answer, r) := r.dispatch step
      advance fuel (.start (k answer)) r

/-- An effect and all that it leads to under the active handler, after that many effects before
it, up to the halt. -/
def drive : Nat → Nat → Step X K → Router X S K → Option (Result (Option Value) × Router X S K)
  | 0, _, _, _ => none
  | fuel + 1, dispatched, step, r =>
    match r.dispatch step with
    | (.error e, r) => some (.error e, r)
    | (.ok (.halt v), r) => some (.ok v, r.report (.halted (dispatched + 1)))
    | (.ok (.resume k v), r) =>
      match advance fuel (Resumable.resume k v) (r.report (.resumed v)) with
      | none => none
      | some (.error e, r) => some (.error e, r)
      | some (.ok step, r) => drive fuel (dispatched + 1) step r

/-- A computation under the active handler, up to the halt. -/
def complete : Nat → Action X S K → Router X S K → Option (Result (Option Value) × Router X S K)
  | 0, _, _ => none
  | fuel + 1, action, r =>
    match advance fuel action r with
    | none => none
    | some (.error e, r) => some (.error e, r)
    | some (.ok step, r) => drive fuel 0 step r

/-- A computation under a strategy: the strategy is started and installed, the computation runs to
the halt, what was active before is brought back, and the strategy is asked for the distribution.
The strategy is handed back as the run has left it. -/
def infer : Nat → S K → Action X S K → Router X S K →
    Option (Result (Distribution X) × S K × Router X S K)
  | 0, _, _, _ => none
  | fuel + 1, strategy, action, r =>
    let started := Strategy.start strategy
    let name := Handler.name started.value
    let (i, r) := (r.reportAll started.events).add (.strategy started.value)
    let (scope, r) := r.install i
    match complete fuel action r with
    | none => none
    | some (outcome, r) =>
      -- Whatever the outcome, the scope is released before the strategy is asked.
      let r := r.release scope
      some (conclude name (strategyAt r i started.value) outcome { r with cells := r.cells.pop })

end

/-- A computation under the active handler, to the value that the handler gives back. -/
def run (fuel : Nat) (action : Action X S K) (r : Router X S K) :
    Option (Result Value × Router X S K) :=
  match complete fuel action r with
  | none => none
  | some (outcome, r) => some (valueOf r outcome, r)

/-- Infers a program, then goes on from the distribution up to the next effect. -/
def inferThen (fuel : Nat) (strategy : S K) (action : Action X S K)
    (next : Distribution X → Action X S K) (r : Router X S K) :
    Option (Result (Step X K) × Router X S K) :=
  match infer fuel strategy action r with
  | none => none
  | some (.error e, _, r) => some (.error e, r)
  | some (.ok d, _, r) => advance fuel (next d) r

end Posterior.Run
