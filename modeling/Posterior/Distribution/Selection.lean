import Posterior.Distribution.Basic

/-!
# Choosing an index by weight

A threshold picks the first index whose cumulative weight exceeds it. Only indices of positive
weight are picked: where rounding leaves the threshold at or above the accumulated total, it is
the last of them.

## Main definitions

* `selectIndex` — the index that a threshold picks
* `validateWeights` — the sum of acceptable weights
* `multinomialSample` — an index drawn with probability proportional to its weight
-/

namespace Posterior

variable {X : Type} [Scalar X]

/-- The index that a threshold picks from the weights at `index` and after, when the weights before
add up to `accumulated` and the last positive one among them was at `last`. -/
def selectFrom (threshold : X) (index : Nat) (accumulated : X) (last : Option Nat) :
    List X → Option Nat
  | [] => last
  | w :: ws =>
    let positive := Scalar.lt Scalar.zero w
    let total := accumulated + w
    -- A weight of zero is not picked even where rounding lets the sum pass the threshold.
    if Scalar.lt threshold total && positive then some index
    else selectFrom threshold (index + 1) total (if positive then some index else last) ws

/-- The index that a threshold picks; none if no weight is positive. -/
def selectIndex (weights : List X) (threshold : X) : Option Nat :=
  selectFrom threshold 0 Scalar.zero none weights

/-- The sum of the weights, provided that they are finite, nonnegative and not all zero. -/
def validateWeights (distribution : String) (weights : List X) : Result X :=
  match weights.find? fun w => !Scalar.isFinite w || Scalar.lt w Scalar.zero with
  | some bad =>
    .error (.invalidParams distribution
      ("weight " ++ Scalar.text bad ++ " is not a finite nonnegative number"))
  | none =>
    let total := Scalar.sum weights
    if Scalar.le total Scalar.zero then
      .error (.invalidParams distribution "weights sum to zero")
    else
      .ok total

/-- An index drawn with probability proportional to its weight. -/
def multinomialSample (weights : List X) (source : Source) : Result Nat × Source :=
  match validateWeights "multinomial" weights with
  | .error e => (.error e, source)
  | .ok total =>
    let (u, source) := (source.unit : X × Source)
    match selectIndex weights (u * total) with
    | some i => (.ok i, source)
    | none => (.error (.invalidParams "multinomial" "no positive weight"), source)

end Posterior
