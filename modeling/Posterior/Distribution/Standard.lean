import Posterior.Distribution.Selection

/-!
# Elementary random choices

A coin flip, a choice of an index by weight, and a uniform choice among items.

## Main definitions

* `Distribution.bernoulli` — a coin flip with a given probability of `true`
* `Distribution.categorical` — an index with probability proportional to its weight
* `Distribution.uniformDraw` — an item of the parameters, each occurrence equally likely
-/

namespace Posterior.Distribution

variable {X : Type} [Scalar X]

/-- The first parameter as a probability. -/
def bernoulliWeight (params : List Value) : Result X :=
  match params.head?.bind Value.asNumber? with
  | none => .error (.invalidParams "bernoulli" "expected [weight]")
  | some (w : X) =>
    if Scalar.le Scalar.zero w && Scalar.le w Scalar.one then .ok w
    else .error (.invalidParams "bernoulli" ("weight " ++ Scalar.text w ++ " outside [0, 1]"))

/-- The log-probability of a side of the coin. -/
def sideScore (w : X) : Value → X
  | .bool true => Scalar.ln w
  | .bool false => Scalar.ln (Scalar.one - w)
  | _ => Scalar.negInf

/-- The sides of the coin that come up with positive probability. -/
def sides (w : X) : List Value :=
  (if Scalar.lt Scalar.zero w then [.bool true] else []) ++
    (if Scalar.lt w Scalar.one then [.bool false] else [])

/-- A coin flip; its one parameter is the probability of `true`. -/
def bernoulli : Distribution X where
  name := "bernoulli"
  sample? := some fun params source =>
    match (bernoulliWeight params : Result X) with
    | .error e => (.error e, source)
    | .ok w =>
      let (u, source) := (source.unit : X × Source)
      (.ok (.bool (Scalar.lt u w)), source)
  score? := some fun params v => (bernoulliWeight params).map fun w => sideScore w v
  support? := some fun params => (bernoulliWeight params).map fun (w : X) => sides w

/-- The parameters as numbers. -/
def numbers : List Value → Result (List X)
  | [] => .ok []
  | v :: vs =>
    match (v.asNumber? : Option X) with
    | none => .error (.invalidParams "categorical" ("weight " ++ v.text ++ " is not a number"))
    | some x => (numbers vs).map (x :: ·)

/-- The parameters as weights. -/
def categoricalWeights (params : List Value) : Result (List X) := do
  let weights : List X ← numbers params
  let _ ← validateWeights "categorical" weights
  return weights

/-- The weight at the index that a value stands for; nothing else has weight. -/
def weightAt (weights : List X) (v : Value) : X :=
  match v.asInt? with
  | some i => if 0 ≤ i.toInt then (weights[i.toInt.toNat]?).getD Scalar.zero else Scalar.zero
  | none => Scalar.zero

/-- The index, as a value. -/
def indexValue (i : Nat) : Value := .int (Int64.ofNat i)

/-- The indices of the positive weights, counted from `index`. -/
def positiveFrom (index : Nat) : List X → List Value
  | [] => []
  | w :: ws =>
    if Scalar.lt Scalar.zero w then indexValue index :: positiveFrom (index + 1) ws
    else positiveFrom (index + 1) ws

/-- An index with probability proportional to its weight; the parameters are the weights. -/
def categorical : Distribution X where
  name := "categorical"
  sample? := some fun params source =>
    match (categoricalWeights params : Result (List X)) with
    | .error e => (.error e, source)
    | .ok weights =>
      let (index, source) := multinomialSample weights source
      (index.map indexValue, source)
  score? := some fun params v =>
    (categoricalWeights params).map fun (weights : List X) =>
      Scalar.ln (weightAt weights v / Scalar.sum weights)
  support? := some fun params =>
    (categoricalWeights params).map fun (weights : List X) => positiveFrom 0 weights

/-- The failure of a choice among no items. -/
def noItems : Failure := .invalidParams "uniform_draw" "no items"

/-- One of the parameters, each occurrence equally likely. -/
def uniformDraw : Distribution X where
  name := "uniform_draw"
  sample? := some fun params source =>
    if params.isEmpty then (.error noItems, source)
    else
      let (index, source) := source.below params.length
      match params[index]? with
      | some v => (.ok v, source)
      | none => (.error noItems, source)
  score? := some fun params v =>
    if params.isEmpty then .error noItems
    else
      let hits := (params.filter fun p => p == v).length
      .ok (Scalar.ln (Scalar.ofNat hits / Scalar.ofNat params.length))
  support? := some fun params => .ok (Value.distinct params)

end Posterior.Distribution
