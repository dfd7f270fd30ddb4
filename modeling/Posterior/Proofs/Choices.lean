import Mathlib.Algebra.Order.Ring.Nat
import Mathlib.Data.List.Forall2
import Posterior.Distribution.Standard
import Posterior.Proofs.Deposits

/-!
# Elementary random choices

Parameters are read, checked and turned into a listing in the same way whatever the arithmetic is.
The first that cannot be read is reported, then the first weight that is not acceptable, then a sum
that is not positive; and what is listed are the values whose weight compares as positive, each once.

## Main results

* `validateWeights_eq_ok_iff`, `validateWeights_eq_error` — which weights are accepted
* `Distribution.bernoulliWeight_eq_ok_iff`, `Distribution.categoricalWeights_eq_ok_iff` — which
  parameters are accepted
* `Distribution.isIn_sides`, `Distribution.isIn_positiveFrom_iff` — what is listed
-/

namespace Posterior

variable {X : Type} [Scalar X]

/-! ### Weights -/

/-- Weights are accepted if they are finite, none is below zero, and their sum is not either. -/
theorem validateWeights_eq_ok_iff {name : String} {ws : List X} {total : X} :
    validateWeights name ws = .ok total ↔
      (∀ w ∈ ws, Scalar.isFinite w = true ∧ Scalar.lt w Scalar.zero = false) ∧
        Scalar.le (Scalar.sum ws) Scalar.zero = false ∧ Scalar.sum ws = total := by
  have fine : (ws.find? fun w => !Scalar.isFinite w || Scalar.lt w Scalar.zero) = none ↔
      ∀ w ∈ ws, Scalar.isFinite w = true ∧ Scalar.lt w Scalar.zero = false := by
    simp [List.find?_eq_none]
  rw [← fine, validateWeights]
  cases ws.find? fun w => !Scalar.isFinite w || Scalar.lt w Scalar.zero with
  | some bad => simp
  | none =>
    simp only [true_and]
    cases Scalar.le (Scalar.sum ws) Scalar.zero <;> simp

/-- What is said of weights that are not accepted. -/
theorem validateWeights_eq_error {name : String} {ws : List X} {err : Failure}
    (refused : validateWeights name ws = .error err) :
    ∃ reason, err = .invalidParams name ("weight" ++ reason) := by
  unfold validateWeights at refused
  split at refused
  · cases refused
    have word : "weight " = "weight" ++ " " := rfl
    rw [word, String.append_assoc, String.append_assoc]
    exact ⟨_, rfl⟩
  · simp only at refused
    split at refused
    · cases refused
      exact ⟨"s sum to zero", rfl⟩
    · cases refused

namespace Distribution

variable {params : List Value} {v : Value} {w : X} {ws : List X} {index : ℕ} {err : Failure}

/-! ### Coin flips -/

/-- A coin needs a first parameter that is a number from zero to one, and looks at no other. -/
theorem bernoulliWeight_eq_ok_iff :
    bernoulliWeight params = .ok w ↔ params.head?.bind Value.asNumber? = some w ∧
      Scalar.le Scalar.zero w = true ∧ Scalar.le w Scalar.one = true := by
  unfold bernoulliWeight
  cases (params.head?.bind Value.asNumber? : Option X) with
  | none => simp
  | some u =>
    simp only [Option.some.injEq]
    split
    · next inside =>
      constructor
      · intro same
        cases same
        exact ⟨rfl, Bool.and_eq_true_iff.1 inside⟩
      · rintro ⟨rfl, -⟩
        rfl
    · next outside =>
      refine iff_of_false nofun ?_
      rintro ⟨rfl, inside⟩
      exact outside (Bool.and_eq_true_iff.2 inside)

theorem bernoulliWeight_eq_error (refused : (bernoulliWeight params : Result X) = .error err) :
    ∃ reason, err = .invalidParams "bernoulli" reason := by
  unfold bernoulliWeight at refused
  split at refused
  · cases refused
    exact ⟨_, rfl⟩
  · split at refused
    · cases refused
    · cases refused
      exact ⟨_, rfl⟩

theorem isIn_sides (w : X) (v : Value) :
    v.isIn (sides w) = match v with
      | .bool true => Scalar.lt Scalar.zero w
      | .bool false => Scalar.lt w Scalar.one
      | _ => false := by
  rw [sides, Value.isIn_append]
  cases Scalar.lt Scalar.zero w <;> cases Scalar.lt w Scalar.one <;>
    rcases v with _ | ⟨_ | _⟩ <;> rfl

theorem pairwise_sides (w : X) : (sides w).Pairwise fun u v => (u == v) = false := by
  have apart : (Value.bool true == Value.bool false) = false := rfl
  unfold sides
  split <;> split <;> simp [apart]

/-! ### Choices by weight -/

/-- All parameters have to be numbers. -/
theorem numbers_eq_ok_iff :
    numbers params = .ok ws ↔ List.Forall₂ (fun v w => v.asNumber? = some w) params ws := by
  induction params generalizing ws with
  | nil =>
    rw [numbers, List.forall₂_nil_left_iff, Except.ok.injEq, eq_comm]
  | cons v vs ih =>
    rw [numbers, List.forall₂_cons_left_iff]
    cases (v.asNumber? : Option X) with
    | none => simp
    | some x =>
      simp only [map_eq_ok_iff, ih, Option.some.injEq]
      constructor
      · rintro ⟨rest, read, rfl⟩
        exact ⟨x, rest, rfl, read, rfl⟩
      · rintro ⟨y, rest, rfl, read, rfl⟩
        exact ⟨rest, read, rfl⟩

theorem numbers_eq_error (refused : (numbers params : Result (List X)) = .error err) :
    ∃ reason, err = .invalidParams "categorical" reason := by
  induction params with
  | nil => cases refused
  | cons v vs ih =>
    rw [numbers] at refused
    split at refused
    · cases refused
      exact ⟨_, rfl⟩
    · exact ih (map_eq_error_iff.1 refused)

/-- The weights are the numbers, once they have been checked. -/
theorem categoricalWeights_eq (params : List Value) :
    (categoricalWeights params : Result (List X)) =
      (numbers params).bind fun ws => (validateWeights "categorical" ws).map fun _ => ws := by
  unfold categoricalWeights
  cases (numbers params : Result (List X)) with
  | error err => rfl
  | ok ws =>
    change (validateWeights "categorical" ws).bind _ = (validateWeights "categorical" ws).map _
    cases validateWeights "categorical" ws <;> rfl

theorem categoricalWeights_eq_ok_iff :
    categoricalWeights params = .ok ws ↔
      numbers params = .ok ws ∧ ∃ total, validateWeights "categorical" ws = .ok total := by
  rw [categoricalWeights_eq]
  cases (numbers params : Result (List X)) with
  | error err => exact iff_of_false nofun nofun
  | ok us =>
    change (validateWeights "categorical" us).map (fun _ => us) = .ok ws ↔ _
    rw [map_eq_ok_iff, Except.ok.injEq]
    constructor
    · rintro ⟨total, accepted, rfl⟩
      exact ⟨rfl, total, accepted⟩
    · rintro ⟨rfl, total, accepted⟩
      exact ⟨total, accepted, rfl⟩

theorem categoricalWeights_eq_error
    (refused : (categoricalWeights params : Result (List X)) = .error err) :
    ∃ reason, err = .invalidParams "categorical" reason := by
  rw [categoricalWeights_eq] at refused
  cases read : (numbers params : Result (List X)) with
  | error err' =>
    rw [read] at refused
    cases refused
    exact numbers_eq_error read
  | ok ws =>
    rw [read] at refused
    obtain ⟨reason, rfl⟩ := validateWeights_eq_error (map_eq_error_iff.1 refused)
    exact ⟨_, rfl⟩

theorem length_of_categoricalWeights (accepted : categoricalWeights params = .ok ws) :
    ws.length = params.length :=
  (numbers_eq_ok_iff.1 (categoricalWeights_eq_ok_iff.1 accepted).1).length_eq.symm

/-- The values that are listed stand for the positive weights. -/
theorem isIn_positiveFrom_iff :
    v.isIn (positiveFrom index ws) = true ↔ ∃ k w, ws[k]? = some w ∧
      Scalar.lt Scalar.zero w = true ∧ (indexValue (index + k) == v) = true := by
  induction ws generalizing index with
  | nil => simp [positiveFrom]
  | cons w ws ih =>
    -- Either the first weight is meant or one behind it.
    have behind : (∃ k u, (w :: ws)[k]? = some u ∧ Scalar.lt Scalar.zero u = true ∧
          (indexValue (index + k) == v) = true) ↔
        (Scalar.lt Scalar.zero w = true ∧ (indexValue index == v) = true) ∨
          v.isIn (positiveFrom (index + 1) ws) = true := by
      rw [ih]
      constructor
      · rintro ⟨_ | k, u, held, positive, same⟩
        · cases held
          exact .inl ⟨positive, same⟩
        · exact .inr ⟨k, u, held, positive, by rwa [Nat.add_right_comm, Nat.add_assoc]⟩
      · rintro (⟨positive, same⟩ | ⟨k, u, held, positive, same⟩)
        · exact ⟨0, w, rfl, positive, same⟩
        · exact ⟨k + 1, u, held, positive, by rwa [Nat.add_right_comm, Nat.add_assoc] at same⟩
    rw [behind, positiveFrom]
    split
    · next positive => simp [positive]
    · next other => simp [other]

/-- Indices that can be addressed are different values. -/
theorem indexValue_ne {i j : ℕ} (less : i < j) (small : j < 2 ^ 63) :
    (indexValue i == indexValue j) = false := by
  rw [Bool.eq_false_iff]
  intro same
  have equal : Int64.ofNat i = Int64.ofNat j := eq_of_beq same
  have numbers := congrArg Int64.toInt equal
  rw [Int64.toInt_ofNat_of_lt (Nat.lt_trans less small), Int64.toInt_ofNat_of_lt small] at numbers
  omega

theorem pairwise_positiveFrom (small : index + ws.length ≤ 2 ^ 63) :
    (positiveFrom index ws).Pairwise fun u v => (u == v) = false := by
  induction ws generalizing index with
  | nil => exact .nil
  | cons w ws ih =>
    rw [List.length_cons] at small
    have behind : index + 1 + ws.length ≤ 2 ^ 63 := by omega
    have others := ih behind
    rw [positiveFrom]
    split
    · refine List.pairwise_cons.2 ⟨?_, others⟩
      -- What is listed behind stands for a larger index.
      intro u hu
      have found : u.isIn (positiveFrom (index + 1) ws) = true :=
        List.any_eq_true.2 ⟨u, hu, BEq.rfl⟩
      obtain ⟨k, w', held, -, same⟩ := isIn_positiveFrom_iff.1 found
      have inside : k < ws.length := (List.getElem?_eq_some_iff.1 held).1
      rw [← BEq.congr_right same]
      exact indexValue_ne (by omega) (by omega)
    · exact others

/-- A value has the weight at the index that it stands for, or none. -/
theorem weightAt_cases (ws : List X) (v : Value) :
    weightAt ws v = Scalar.zero ∨
      ∃ k : ℕ, ws[k]? = some (weightAt ws v) ∧ (indexValue k == v) = true := by
  cases v with
  | unit | bool | float | str | list => exact .inl rfl
  | int i =>
    change (if 0 ≤ i.toInt then (ws[i.toInt.toNat]?).getD Scalar.zero else Scalar.zero) = _ ∨
      ∃ k : ℕ, ws[k]? = some (if 0 ≤ i.toInt then (ws[i.toInt.toNat]?).getD Scalar.zero
        else Scalar.zero) ∧ _
    split
    · next nonneg =>
      cases held : ws[i.toInt.toNat]? with
      | none => exact .inl rfl
      | some w =>
        refine .inr ⟨i.toInt.toNat, held, ?_⟩
        have inRange : i.toInt.toNat < 2 ^ 63 := by
          have := i.toInt_lt
          omega
        -- The index stands for the integer that it was made of.
        have same : Int64.ofNat i.toInt.toNat = i := by
          rw [← Int64.toInt_inj, Int64.toInt_ofNat_of_lt inRange, Int.toNat_of_nonneg nonneg]
        change (Int64.ofNat i.toInt.toNat == i) = true
        rw [same]
        exact BEq.rfl
    · exact .inl rfl

/-! ### Uniform choices -/

/-- What is drawn is one of the items, in the spelling that it has there. -/
theorem mem_of_sample_uniformDraw {source : Source}
    (drawn : ((uniformDraw : Distribution X).sample params source).1 = .ok v) : v ∈ params := by
  unfold sample uniformDraw at drawn
  simp only at drawn
  split at drawn
  · cases drawn
  · split at drawn
    · next found =>
      obtain rfl := Except.ok.inj drawn
      exact List.mem_of_getElem? found
    · cases drawn

end Distribution

end Posterior
