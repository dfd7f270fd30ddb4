import Mathlib.Algebra.Order.BigOperators.Group.List
import Posterior.Distribution.Selection
import Posterior.Proofs.Exact

/-!
# The interval of an index

In exact arithmetic weights cut intervals one after the other from zero up, and the index that a
threshold picks is the one whose interval holds it. The invariant is that the threshold has not been
passed by the weights seen so far.

## Main results

* `exists_selectIndex` — a threshold below the sum of the weights picks an index
* `selectIndex_eq_some_iff` — which one it is
-/

namespace Posterior

variable {x accumulated : EReal} {ws : List EReal}

/-- A threshold that the weights so far have not passed, but all of them do, picks the index at which
it is passed. -/
theorem exists_selectFrom (reached : accumulated ≤ x) (below : x < accumulated + ws.sum) (index : Nat)
    (last : Option Nat) :
    ∃ i < ws.length, selectFrom x index accumulated last ws = some (index + i) ∧
      accumulated + (ws.take i).sum ≤ x ∧ x < accumulated + (ws.take (i + 1)).sum := by
  induction ws generalizing accumulated index last with
  | nil =>
    rw [List.sum_nil, add_zero] at below
    exact absurd below (not_lt.2 reached)
  | cons w ws ih =>
    rw [selectFrom]
    by_cases passed : x < accumulated + w
    · -- The weight is positive, or the threshold had been passed before.
      have positive : 0 < w := by
        by_contra none
        have kept : accumulated + w ≤ accumulated + 0 := by gcongr; exact not_lt.1 none
        rw [add_zero] at kept
        exact absurd (passed.trans_le kept) (not_lt.2 reached)
      refine ⟨0, Nat.succ_pos _, ?_, by simpa using reached, by simpa using passed⟩
      simp [passed, positive]
    · rw [List.sum_cons, ← add_assoc] at below
      obtain ⟨i, inside, picked, reached', passed'⟩ :=
        ih (not_lt.1 passed) below (index + 1) (if 0 < w then some index else last)
      refine ⟨i + 1, Nat.succ_lt_succ inside, ?_, ?_, ?_⟩
      · rw [Nat.add_comm i 1, ← Nat.add_assoc]
        simpa [passed] using picked
      · rwa [List.take_succ_cons, List.sum_cons, ← add_assoc]
      · rwa [List.take_succ_cons, List.sum_cons, ← add_assoc]

/-- A threshold between zero and the sum of the weights picks the index whose interval holds it. -/
theorem exists_selectIndex (reached : 0 ≤ x) (below : x < ws.sum) :
    ∃ i < ws.length, selectIndex ws x = some i ∧ (ws.take i).sum ≤ x ∧
      x < (ws.take (i + 1)).sum := by
  have under : x < 0 + ws.sum := by rwa [zero_add]
  obtain ⟨i, inside, picked, interval⟩ := exists_selectFrom reached under 0 none
  rw [Nat.zero_add] at picked
  rw [zero_add, zero_add] at interval
  rw [selectIndex, Scalar.exact_zero]
  exact ⟨i, inside, picked, interval⟩

/-- Weights that are not negative add up the higher the more of them there are. -/
theorem sum_take_le_sum_take (nonneg : ∀ w ∈ ws, 0 ≤ w) {i j : Nat} (le : i ≤ j) :
    (ws.take i).sum ≤ (ws.take j).sum :=
  (List.take_sublist_take_left le).sum_le_sum fun w hw => nonneg w (List.mem_of_mem_take hw)

/-- No other index is picked by the thresholds in the interval of an index. -/
theorem selectIndex_eq_some_iff (nonneg : ∀ w ∈ ws, 0 ≤ w) (reached : 0 ≤ x) (below : x < ws.sum)
    {i : Nat} :
    selectIndex ws x = some i ↔
      i < ws.length ∧ (ws.take i).sum ≤ x ∧ x < (ws.take (i + 1)).sum := by
  obtain ⟨j, inside, picked, from_j, to_j⟩ := exists_selectIndex reached below
  rw [picked, Option.some.injEq]
  constructor
  · rintro rfl
    exact ⟨inside, from_j, to_j⟩
  · rintro ⟨-, from_i, to_i⟩
    -- Two intervals that hold the same threshold cannot lie one behind the other.
    rcases Nat.lt_trichotomy i j with before | same | behind
    · exact absurd (to_i.trans_le (sum_take_le_sum_take nonneg before)) (not_lt.2 from_j)
    · exact same.symm
    · exact absurd (to_j.trans_le (sum_take_le_sum_take nonneg behind)) (not_lt.2 from_i)

end Posterior
