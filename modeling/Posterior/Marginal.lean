import Posterior.Distribution.Selection

/-!
# Marginals

A marginal records how much mass the finished paths of a program have put on each value. Masses are
held as logarithms and values stay in the order in which they were first reached, which fixes the
intervals that the frozen distribution samples from.

## Main definitions

* `Marginal` — log-masses by value, in order of first arrival
* `DistinctKeys` — each value has at most one entry, which every operation keeps
* `Marginal.addLog` — mass added to a value
* `Marginal.logTotal`, `Marginal.normalized` — the sum of the masses, and division by it
* `Marginal.toDistribution`, `Marginal.ofDistribution?` — freezing, and reading back
-/

namespace Posterior

/-- No value has two entries. -/
def DistinctKeys {X : Type} (entries : List (Value × X)) : Prop :=
  entries.Pairwise fun a b => (a.1 == b.1) = false

/-- Log-masses by value, in order of first arrival. -/
structure Marginal (X : Type) where
  /-- The values with their log-masses. -/
  entries : List (Value × X)
  /-- Each value is there once. -/
  distinct : DistinctKeys entries

namespace Marginal

variable {X : Type} [Scalar X]

/-- No mass anywhere. -/
def empty : Marginal X := ⟨[], List.Pairwise.nil⟩

/-- The log-mass found for a value in a list of entries. -/
def find? (v : Value) : List (Value × X) → Option X
  | [] => none
  | (u, l) :: rest => if u == v then some l else find? v rest

/-- Adds mass to the entry of a value, or puts a new entry at the end. -/
def insert (v : Value) (logMass : X) : List (Value × X) → List (Value × X)
  | [] => [(v, Scalar.logAddExp Scalar.negInf logMass)]
  | (u, l) :: rest =>
    if u == v then (u, Scalar.logAddExp l logMass) :: rest else (u, l) :: insert v logMass rest

/-- An entry after insertion has a key from before, or the inserted one. -/
theorem key_of_mem_insert {v : Value} {l : X} {entries : List (Value × X)} {e : Value × X}
    (h : e ∈ insert v l entries) : e.1 = v ∨ ∃ d ∈ entries, d.1 = e.1 := by
  induction entries with
  | nil => simp_all [insert]
  | cons d rest ih =>
    obtain ⟨u, m⟩ := d
    rw [insert] at h
    split at h
    · rcases List.mem_cons.1 h with rfl | h
      · exact .inr ⟨(u, m), List.mem_cons_self, rfl⟩
      · exact .inr ⟨e, List.mem_cons_of_mem _ h, rfl⟩
    · rcases List.mem_cons.1 h with rfl | h
      · exact .inr ⟨(u, m), List.mem_cons_self, rfl⟩
      · rcases ih h with h | ⟨d, hd, h⟩
        · exact .inl h
        · exact .inr ⟨d, List.mem_cons_of_mem _ hd, h⟩

/-- Insertion gives no value a second entry. -/
theorem distinctKeys_insert (v : Value) (l : X) {entries : List (Value × X)}
    (h : DistinctKeys entries) : DistinctKeys (insert v l entries) := by
  induction entries with
  | nil => exact List.pairwise_singleton ..
  | cons d rest ih =>
    obtain ⟨u, m⟩ := d
    obtain ⟨apart, h⟩ := List.pairwise_cons.1 h
    rw [insert]
    split
    · exact List.pairwise_cons.2 ⟨apart, h⟩
    · next other =>
      refine List.pairwise_cons.2 ⟨fun e he => ?_, ih h⟩
      rcases key_of_mem_insert he with hv | ⟨d, hd, hv⟩
      · rw [hv]
        exact Bool.eq_false_iff.2 other
      · rw [← hv]
        exact apart d hd

/-- Adds mass, given by its logarithm, to a value. -/
def addLog (m : Marginal X) (v : Value) (logMass : X) : Marginal X :=
  ⟨insert v logMass m.entries, distinctKeys_insert v logMass m.distinct⟩

/-- Adds mass to a value. -/
def add (m : Marginal X) (v : Value) (mass : X) : Marginal X := m.addLog v (Scalar.ln mass)

/-- The logarithm of the mass on a value. -/
def logMass? (m : Marginal X) (v : Value) : Option X := find? v m.entries

/-- The mass on a value. -/
def mass? (m : Marginal X) (v : Value) : Option X := (m.logMass? v).map Scalar.exp

/-- The logarithm of all the mass. -/
def logTotal (m : Marginal X) : X :=
  m.entries.foldl (fun total e => Scalar.logAddExp total e.2) Scalar.negInf

/-- All the mass. -/
def total (m : Marginal X) : X := Scalar.exp m.logTotal

/-- How many values have an entry. -/
def size (m : Marginal X) : Nat := m.entries.length

/-- The values that have an entry. -/
def keys (m : Marginal X) : List Value := m.entries.map Prod.fst

/-- The values with their masses. -/
def masses (m : Marginal X) : List (Value × X) := m.entries.map fun e => (e.1, Scalar.exp e.2)

/-- The same entries with the same log-masses, whatever their order. -/
def same (m n : Marginal X) : Bool :=
  m.size == n.size && m.entries.all fun e =>
    match n.logMass? e.1 with
    | some l => Scalar.eq e.2 l
    | none => false

/-- The entries with mass, each divided by the given total. -/
def rescale (logTotal : X) (entries : List (Value × X)) : List (Value × X) :=
  (entries.filter fun e => Scalar.lt Scalar.negInf e.2).map fun e => (e.1, e.2 - logTotal)

/-- Rescaling gives no value a second entry. -/
theorem distinctKeys_rescale (logTotal : X) {entries : List (Value × X)}
    (h : DistinctKeys entries) : DistinctKeys (rescale logTotal entries) :=
  List.pairwise_map.2 (h.filter _)

/-- Divides by the total and drops the values without mass. There has to be some mass, and it has to
be a number. -/
def normalized (m : Marginal X) : Result (Marginal X) :=
  if Scalar.isFinite m.logTotal then
    .ok ⟨rescale m.logTotal m.entries, distinctKeys_rescale m.logTotal m.distinct⟩
  else
    .error .zeroMass

/-- The value whose interval holds a threshold, when the masses cut intervals from zero up in
order. -/
def pick? (m : Marginal X) (threshold : X) : Option Value :=
  match selectIndex (m.masses.map Prod.snd) threshold with
  | some i => m.keys[i]?
  | none => none

/-- The distribution that lists the values of a marginal, scores them by their log-masses and
samples by the intervals that their masses cut from the unit interval. Parameters are ignored. -/
def toDistribution (m : Marginal X) : Distribution X where
  name := "enumerated"
  sample? := some fun _ source =>
    let (u, source) := (source.unit : X × Source)
    match m.pick? u with
    | some v => (.ok v, source)
    | none => (.error .zeroMass, source)
  score? := some fun _ v => .ok ((m.logMass? v).getD Scalar.negInf)
  support? := some fun _ => .ok m.keys

/-- Adds the scores of the listed values, up to the first that has none. -/
def addScores (d : Distribution X) (params : List Value) (m : Marginal X) :
    List Value → Result (Marginal X)
  | [] => .ok m
  | v :: vs =>
    match d.score params v with
    | .error e => .error e
    | .ok l => addScores d params (m.addLog v l) vs

/-- The marginal of a distribution that lists and scores its support. -/
def ofDistribution? (d : Distribution X) (params : List Value) : Result (Marginal X) :=
  match d.support params with
  | .error e => .error e
  | .ok vs => addScores d params empty vs

/-- The line of an entry: the text of the value, and its mass to six places. -/
def line (e : Value × X) : String := e.1.text ++ ": " ++ Scalar.fixedText 6 e.2 ++ "\n"

/-- A line for each value. -/
def text (m : Marginal X) : String := (m.masses.map line).foldr (· ++ ·) ""

end Marginal

end Posterior
