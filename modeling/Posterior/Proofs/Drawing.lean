import Posterior.Proofs.Double.Weights
import Posterior.Proofs.Selection

/-!
# Drawing an index by weight

A threshold picks an index of positive weight whenever there is one, in any arithmetic. In exact
arithmetic the index is a step function of the threshold: each index is picked on an interval as
long as its weight, from the sum of the weights before, and what lies beyond the last interval picks
the last of the positive weights. Doubles round the sums, and still an index can always be drawn by
weights that are accepted.

## Main definitions

* `PicksPositive` — only positive weights are picked, and one of them if there is any
* `InvertsSums` — which of the exact weights a threshold picks
* `DrawsPositive` — drawing an index by weights that are doubles

## Main results

* `exists_drawn` — weights that are accepted can be drawn from
* `selectIndex_inverts` — picking an index inverts the sums of the weights
-/

namespace Posterior

/-! ### Positive weights -/

section Positive

variable {X : Type} [Scalar X] {x accumulated : X} {index i : Nat} {last : Option Nat} {ws : List X}

/-- Without a positive weight, what was found before is picked. -/
theorem selectFrom_of_none (none : ∀ w ∈ ws, Scalar.lt Scalar.zero w = false) :
    selectFrom x index accumulated last ws = last := by
  induction ws generalizing index accumulated with
  | nil => rfl
  | cons w ws ih =>
    obtain ⟨first, others⟩ := List.forall_mem_cons.1 none
    simp only [selectFrom, first, Bool.and_false, Bool.false_eq_true, if_false]
    exact ih others

theorem selectFrom_eq_none_iff :
    selectFrom x index accumulated last ws = none ↔
      last = none ∧ ∀ w ∈ ws, Scalar.lt Scalar.zero w = false := by
  constructor
  · intro unpicked
    induction ws generalizing index accumulated last with
    | nil => exact ⟨unpicked, fun w hw => absurd hw List.not_mem_nil⟩
    | cons w ws ih =>
      rw [selectFrom] at unpicked
      split at unpicked
      · cases unpicked
      · obtain ⟨before, others⟩ := ih unpicked
        cases first : Scalar.lt Scalar.zero w with
        | false =>
          rw [first] at before
          exact ⟨before, List.forall_mem_cons.2 ⟨first, others⟩⟩
        | true =>
          rw [first] at before
          cases before
  · rintro ⟨rfl, none⟩
    exact selectFrom_of_none none

/-- What is picked was found before, or is a positive weight. -/
theorem selectFrom_eq_some (picked : selectFrom x index accumulated last ws = some i) :
    last = some i ∨ ∃ k w, i = index + k ∧ ws[k]? = some w ∧ Scalar.lt Scalar.zero w = true := by
  induction ws generalizing index accumulated last with
  | nil => exact .inl picked
  | cons w ws ih =>
    rw [selectFrom] at picked
    cases first : Scalar.lt Scalar.zero w with
    | false =>
      simp only [first, Bool.and_false, Bool.false_eq_true, if_false] at picked
      rcases ih picked with before | ⟨k, u, rfl, held, positive⟩
      · exact .inl before
      · exact .inr ⟨k + 1, u, by omega, held, positive⟩
    | true =>
      have here : ∃ k w', index = index + k ∧ (w :: ws)[k]? = some w' ∧
          Scalar.lt Scalar.zero w' = true := ⟨0, w, rfl, rfl, first⟩
      simp only [first, Bool.and_true, if_true] at picked
      split at picked
      · cases picked
        exact .inr here
      · rcases ih picked with before | ⟨k, u, rfl, held, positive⟩
        · cases before
          exact .inr here
        · exact .inr ⟨k + 1, u, by omega, held, positive⟩

end Positive

/-- No index is picked unless a weight is positive, and none but those of positive weights are. -/
structure PicksPositive {X : Type} [Scalar X] (ws : List X) (x : X) : Prop where
  none_iff : selectIndex ws x = none ↔ ∀ w ∈ ws, Scalar.lt Scalar.zero w = false
  positive : ∀ i, selectIndex ws x = some i →
    ∃ w, ws[i]? = some w ∧ Scalar.lt Scalar.zero w = true

theorem picksPositive {X : Type} [Scalar X] (ws : List X) (x : X) : PicksPositive ws x where
  none_iff := selectFrom_eq_none_iff.trans (and_iff_right rfl)
  positive i picked := by
    rcases selectFrom_eq_some picked with before | ⟨k, w, rfl, held, positive⟩
    · cases before
    · exact ⟨w, by rwa [Nat.zero_add], positive⟩

/-! ### Exact weights -/

section Exact

variable {x y accumulated : EReal} {index i j : ℕ} {last : Option ℕ} {ws : List EReal}

/-- What was found before stays behind what is picked. -/
theorem le_of_selectFrom (behind : ∀ l ∈ last, l ≤ index)
    (picked : selectFrom x index accumulated last ws = some i) : ∀ l ∈ last, l ≤ i := by
  intro l found
  rcases selectFrom_eq_some picked with before | ⟨k, w, rfl, -, -⟩
  · rw [before] at found
    cases found
    rfl
  · exact (behind l found).trans (Nat.le_add_right _ _)

/-- A larger threshold is passed at a later weight. -/
theorem selectFrom_mono (le : x ≤ y) (behind : ∀ l ∈ last, l ≤ index)
    (picked : selectFrom x index accumulated last ws = some i)
    (picked' : selectFrom y index accumulated last ws = some j) : i ≤ j := by
  induction ws generalizing index accumulated last with
  | nil =>
    rw [selectFrom] at picked picked'
    rw [picked] at picked'
    exact (Option.some.inj picked').le
  | cons w ws ih =>
    rw [selectFrom] at picked picked'
    have behind' : ∀ l ∈ (if Scalar.lt Scalar.zero w = true then some index else last), l ≤ index + 1 := by
      intro l found
      split at found
      · cases found
        exact Nat.le_succ _
      · exact (behind l found).trans (Nat.le_succ _)
    split at picked
    · next passed =>
      obtain rfl := Option.some.inj picked
      split at picked'
      · exact (Option.some.inj picked').le
      · -- The smaller threshold has been passed here, so the larger is not passed before.
        rw [if_pos (Bool.and_eq_true_iff.1 passed).2] at picked' behind'
        exact le_of_selectFrom behind' picked' index rfl
    · next unpassed =>
      split at picked'
      · next passed' =>
        obtain ⟨above, positive⟩ := Bool.and_eq_true_iff.1 passed'
        have less := Scalar.exact_lt_iff.1 above
        exact absurd (Bool.and_eq_true_iff.2 ⟨Scalar.exact_lt_iff.2 (le.trans_lt less), positive⟩) unpassed
      · exact ih behind' picked picked'

/-- A threshold that is never passed picks the last positive weight. -/
theorem selectFrom_of_sum_le {before after : List EReal} {w : EReal}
    (nonneg : ∀ u ∈ before ++ w :: after, 0 ≤ u) (positive : 0 < w) (none : ∀ u ∈ after, u = 0)
    (beyond : accumulated + (before ++ w :: after).sum ≤ x) :
    selectFrom x index accumulated last (before ++ w :: after) = some (index + before.length) := by
  induction before generalizing index accumulated last with
  | nil =>
    have rest : after.sum = 0 := List.sum_eq_zero none
    have unpassed : ¬ x < accumulated + w := by
      simpa [rest] using beyond
    have unfound : ∀ u ∈ after, Scalar.lt Scalar.zero u = false := by
      intro u hu
      rw [Bool.eq_false_iff]
      simp [none u hu]
    rw [List.nil_append, selectFrom, selectFrom_of_none unfound]
    simp [unpassed, positive]
  | cons u before ih =>
    obtain ⟨first, others⟩ := List.forall_mem_cons.1 nonneg
    rw [List.cons_append, List.sum_cons, ← add_assoc] at beyond
    -- The weights behind are not below zero, so the sum up to here is not above the threshold.
    have unpassed : ¬ x < accumulated + u := by
      have rest := List.sum_nonneg others
      exact not_lt.2 ((le_add_of_nonneg_right rest).trans beyond)
    rw [List.cons_append, selectFrom]
    simp only [Scalar.exact_lt_iff.not.2 unpassed, Bool.false_and, Bool.false_eq_true, if_false]
    rw [ih others beyond, List.length_cons]
    congr 1
    omega

end Exact

/-- Exact weights: each index is picked on the interval that its weight adds to the sum, what lies
beyond picks the last positive weight, and no larger threshold picks an earlier index. -/
structure InvertsSums (ws : List EReal) : Prop where
  interval : ∀ x, 0 ≤ x → x < ws.sum → ∀ i w, ws[i]? = some w →
    (selectIndex ws x = some i ↔ (ws.take i).sum ≤ x ∧ x < (ws.take i).sum + w)
  beyond : ∀ x, ws.sum ≤ x → ∀ before w after, ws = before ++ w :: after → 0 < w →
    (∀ u ∈ after, u = 0) → selectIndex ws x = some before.length
  mono : ∀ x y i j, x ≤ y → selectIndex ws x = some i → selectIndex ws y = some j → i ≤ j

theorem invertsSums {ws : List EReal} (nonneg : ∀ w ∈ ws, 0 ≤ w) : InvertsSums ws where
  interval x reached below i w held := by
    obtain ⟨inside, value⟩ := List.getElem?_eq_some_iff.1 held
    rw [selectIndex_eq_some_iff nonneg reached below, List.sum_take_succ _ _ inside, value]
    exact and_iff_right inside
  beyond x all before w after parts positive none := by
    subst parts
    have beyond : Scalar.zero + (before ++ w :: after).sum ≤ x := by
      rwa [Scalar.exact_zero, zero_add]
    rw [selectIndex, selectFrom_of_sum_le nonneg positive none beyond, Nat.zero_add]
  mono x y i j le picked picked' :=
    selectFrom_mono le (fun l found => absurd found (Option.not_mem_none l)) picked picked'

/-! ### Doubles -/

/-- Doubles as weights: what is accepted as weights can be drawn from, and the draw never fails for
want of a positive weight. -/
structure DrawsPositive (ws : List Float) (source : Source) : Prop where
  accepted : ∀ name total, validateWeights name ws = .ok total →
    ∃ i w, (multinomialSample ws source).1 = .ok i ∧ ws[i]? = some w ∧ Scalar.lt Scalar.zero w = true
  possible : (multinomialSample ws source).1 ≠
    .error (.invalidParams "multinomial" "no positive weight")

/-- There is a positive weight among those that are accepted, so whatever the threshold, an index is
picked. -/
theorem exists_drawn {ws : List Float} {name : String} {total : Float}
    (accepted : validateWeights name ws = .ok total) (source : Source) :
    ∃ i w, (multinomialSample ws source).1 = .ok i ∧ ws[i]? = some w ∧
      Scalar.lt Scalar.zero w = true := by
  obtain ⟨u, hu, positive⟩ := @Double.exists_positive Float.log _ _ _ accepted
  -- The weights are checked again, in the name of the draw.
  have again : validateWeights "multinomial" ws = .ok total :=
    validateWeights_eq_ok_iff.2 (validateWeights_eq_ok_iff.1 accepted)
  have picks := picksPositive ws ((source.unit : Float × Source).1 * total)
  unfold multinomialSample
  rw [again]
  simp only
  cases picked : selectIndex ws ((source.unit : Float × Source).1 * total) with
  | none =>
    have unpositive : Scalar.lt Scalar.zero u = false := picks.none_iff.1 picked u hu
    exact Bool.noConfusion (positive.symm.trans unpositive)
  | some i =>
    obtain ⟨w, held, positive⟩ := picks.positive i picked
    exact ⟨i, w, rfl, held, positive⟩

/-- No weights are refused for want of a positive one: the wordings differ from the first letter on. -/
theorem validateWeights_ne {X : Type} [Scalar X] (name : String) (ws : List X) :
    validateWeights name ws ≠ .error (.invalidParams name "no positive weight") := by
  intro refused
  obtain ⟨reason, same⟩ := validateWeights_eq_error refused
  have wording : "no positive weight" = "weight" ++ reason := by simpa using same
  have letters := congrArg String.toList wording
  simp at letters

theorem drawsPositive (ws : List Float) (source : Source) : DrawsPositive ws source where
  accepted _ _ accepted := exists_drawn accepted source
  possible := by
    intro failed
    cases checked : validateWeights "multinomial" ws with
    | ok total =>
      obtain ⟨i, w, drawn, -⟩ := exists_drawn checked source
      rw [drawn] at failed
      cases failed
    | error err =>
      unfold multinomialSample at failed
      rw [checked] at failed
      obtain rfl : err = .invalidParams "multinomial" "no positive weight" := Except.error.inj failed
      exact validateWeights_ne "multinomial" ws checked

/-- In any arithmetic no index is picked exactly if no weight is positive, and only positive weights
are picked. Exact thresholds below the sum of the weights fall into the interval of the index that is
picked, those from the sum up pick the last positive weight, and larger thresholds never pick earlier
indices. So whatever the source, an index of positive weight is drawn by doubles that are accepted as
weights, and drawing never fails for want of a positive weight. -/
theorem selectIndex_inverts :
    (∀ (X : Type) [Scalar X] (ws : List X) (x : X), PicksPositive ws x) ∧
      (∀ ws : List EReal, (∀ w ∈ ws, 0 ≤ w) → InvertsSums ws) ∧
      ∀ (ws : List Float) (source : Source), DrawsPositive ws source :=
  ⟨fun _ _ => picksPositive, fun _ => invertsSums, drawsPositive⟩

/-- There are gaps on both sides of the two positive weights. A threshold where the interval of the
first ends picks the second, and so does one beyond them; doubles like them are drawn from. -/
theorem selectIndex_inverts_gaps :
    (∀ w ∈ ([0, 1, 0, 2, 0] : List EReal), 0 ≤ w) ∧
      selectIndex ([0, 1, 0, 2, 0] : List EReal) 1 = some 3 ∧
      selectIndex ([0, 1, 0, 2, 0] : List EReal) 5 = some 3 ∧
      validateWeights "" ([0, 1, 0] : List Float) = .ok 1 ∧
      ∃ i w, (multinomialSample ([0, 1, 0] : List Float) (.ofWords #[])).1 = .ok i ∧
        ([0, 1, 0] : List Float)[i]? = some w ∧ Scalar.lt Scalar.zero w = true := by
  obtain ⟨-, reals, doubles⟩ := selectIndex_inverts
  have nonneg : ∀ w ∈ ([0, 1, 0, 2, 0] : List EReal), 0 ≤ w := by simp
  have inverts := reals _ nonneg
  have accepted : validateWeights "" ([0, 1, 0] : List Float) = .ok 1 := by rfl
  have sum : ([0, 1, 0, 2, 0] : List EReal).sum = 3 := by
    simp only [List.sum_cons, List.sum_nil]
    norm_num
  refine ⟨nonneg, ?_, ?_, accepted, (doubles _ _).accepted _ _ accepted⟩
  · refine (inverts.interval 1 zero_le_one ?_ 3 2 rfl).2 ⟨?_, ?_⟩
    · rw [sum]
      norm_cast
    · simp
    · simp
      norm_cast
  · refine inverts.beyond 5 ?_ [0, 1, 0] 2 [0] rfl ?_ ?_
    · rw [sum]
      norm_cast
    · norm_num
    · simp

end Posterior
