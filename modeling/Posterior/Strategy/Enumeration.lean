import Posterior.Handler
import Posterior.Marginal

/-!
# Exhaustive enumeration

Explores every path of a program. A choice splits the search into one alternative for each value
of the support; the alternatives are put on a stack and the one on top is taken. When a path ends,
its score is added to the marginal of its value and the next alternative is taken. The result is
the normalized marginal.

The search ends only if all paths of the program do and all supports on them are finite.

## Main definitions

* `Alternative` — a path that waits to be explored
* `Enumeration` — the strategy
* `Enumeration.Phase` — where the search stands
-/

namespace Posterior

/-- A path that waits to be explored: where to go on, with which value, and how it scores so far. -/
structure Alternative (X K : Type) where
  /-- The rest of the program. -/
  k : K
  /-- The value that it receives. -/
  value : Value
  /-- The log-probability of the path. -/
  score : X

/-- The strategy that explores every path. -/
structure Enumeration (X K : Type) where
  /-- Whether the normalized marginal is reported to the user. -/
  reportMarginal : Bool
  /-- The log-probability of the path being explored. -/
  score : X
  /-- The paths that wait, the next one first. -/
  pending : List (Alternative X K) := []
  /-- The mass of the paths that ended, by value. -/
  marginal : Marginal X := .empty
  /-- How many paths have ended. -/
  paths : Nat := 0
  /-- How many choices have been split. -/
  forks : Nat := 0
  /-- The largest number of paths that waited at once. -/
  peakPending : Nat := 0
  /-- Whether an alternative was needed and none was left. -/
  done : Bool := false

namespace Enumeration

variable {X K : Type} [Scalar X]

/-- A search that has not begun. -/
def fresh (reportMarginal : Bool) : Enumeration X K where
  reportMarginal := reportMarginal
  score := Scalar.zero

/-- Where a search stands. -/
inductive Phase where
  /-- On a path, with no other waiting. -/
  | running
  /-- On a path, while others wait. -/
  | queued
  /-- Out of paths. -/
  | done
  deriving DecidableEq, Repr

/-- Where the search stands. -/
def phase (s : Enumeration X K) : Phase :=
  if s.done then .done
  else if s.pending.isEmpty then .running
  else .queued

/-- Takes the next alternative, or halts if none is left. -/
def next (s : Enumeration X K) : Logged X (Resumption K × Enumeration X K) :=
  match s.pending with
  | a :: rest => pure (.resume a.k a.value, { s with score := a.score, pending := rest })
  | [] => do
    Logged.report (.exhausted s.paths s.forks)
    return (.halt none, { s with done := true })

/-- The alternatives for the given values, in order, on a path with the given score; fails at the
first value that cannot be scored. -/
def alternatives (k : K) (d : Distribution X) (params : List Value) (score : X) :
    List Value → Result (List (Alternative X K))
  | [] => .ok []
  | v :: vs =>
    match d.score params v with
    | .error e => .error e
    | .ok l => (alternatives k d params score vs).map (⟨k, v, score + l⟩ :: ·)

/-- The failure of a choice whose support cannot be listed. -/
def noSupport (d : Distribution X) : Failure :=
  .unsupportedEffect "enumerate" .draw ("distribution " ++ d.name ++ " cannot list its support")

/-- Everything that a choice needs: the scored alternatives for the support. -/
def split (k : K) (d : Distribution X) (params : List Value) (score : X) :
    Result (List (Alternative X K)) :=
  if d.has .support then do
    d.require [.score]
    let vs ← d.support params
    alternatives k d params score vs
  else
    .error (noSupport d)

/-- Whether a log-weight makes sense: minus infinity rejects the path, but nothing may be infinitely
likely. -/
def acceptable (logWeight : X) : Bool :=
  !(Scalar.isNaN logWeight || Scalar.eq logWeight Scalar.posInf)

/-- How a search answers an effect. All alternatives of a choice are scored before any of them
waits, so that an effect that fails changes nothing. -/
def handle (step : Step X K) (s : Enumeration X K) :
    Logged X (Result (Resumption K) × Enumeration X K) :=
  match step with
  | .draw k d params =>
    match split k d params s.score with
    | .error e => pure (.error e, s)
    | .ok found => do
      Logged.report (.forked d.name found.length s.score)
      -- The top of the stack comes first, so the last value of the support is explored first.
      let pending := found.reverse ++ s.pending
      let s := { s with
        forks := s.forks + 1
        pending := pending
        peakPending := Nat.max s.peakPending pending.length }
      let (answer, s) ← s.next
      return (.ok answer, s)
  | .weight k logWeight =>
    if acceptable logWeight then do
      let s := { s with score := s.score + logWeight }
      Logged.report (.weighted logWeight s.score)
      return (.ok (.resume k .unit), s)
    else
      pure (.error (.arithmetic
        ("log-weight " ++ Scalar.text logWeight ++ " is not a finite number or -inf")), s)
  | .exit v => do
    Logged.report (.pathExited v s.score)
    let s := { s with marginal := s.marginal.addLog v s.score, paths := s.paths + 1 }
    let (answer, s) ← s.next
    return (.ok answer, s)

/-- Reports the lines of a marginal. -/
def reportLines : List (Value × X) → Logged X Unit
  | [] => pure ()
  | (v, mass) :: rest => do
    Logged.report (.listed v mass)
    reportLines rest

/-- The normalized marginal as a distribution. The marginal is taken out, also if it has no mass; it
stays if paths wait. -/
def finish (s : Enumeration X K) : Logged X (Result (Distribution X) × Enumeration X K) :=
  if s.pending.isEmpty then
    let rest := { s with marginal := .empty }
    match s.marginal.normalized with
    | .error e => pure (.error e, rest)
    | .ok m => do
      Logged.report (.enumerated s.paths m.size s.reportMarginal)
      if s.reportMarginal then reportLines m.masses
      return (.ok m.toDistribution, rest)
  else
    pure (.error (.protocolViolation ("enumeration finished with " ++ s.pending.length.repr ++
      " unexplored alternatives")), s)

end Enumeration

instance {X : Type} [Scalar X] : Strategy X (Enumeration X) where
  name _ := "enumerate"
  handle _ step s := s.handle step
  start s := pure (.fresh s.reportMarginal)
  finish s := s.finish

end Posterior
