import Mathlib.Tactic.Common
import Posterior.Value.Basic

/-!
# Equality of values

What a value feeds to a hash says which value it is, up to equality of values: the feed of one value
is never the beginning of the feed of another. Equality of values is equality of what they feed, and
so it is an equivalence.

## Main results

* `Value.same_iff_feed_eq` — values are equal when they feed the same to a hash
* the instance of `EquivBEq`
-/

namespace Posterior.Value

mutual

/-- Equal values feed the same to a hash. -/
theorem feed_eq_of_same : ∀ {a b : Value}, same a b = true → feed a = feed b
  | unit, b, h => by cases b <;> simp_all [same]
  | bool _, b, h => by cases b <;> simp_all [same]
  | int _, b, h => by cases b <;> simp_all [same]
  | float _, b, h => by cases b <;> simp_all [same, feed]
  | str _, b, h => by cases b <;> simp_all [same]
  | list as, b, h => by
    cases b with
    | list bs =>
      obtain ⟨length, items⟩ := feedItems_eq_of_sameItems (show sameItems as bs = true from h)
      rw [feed, feed, length, items]
    | _ => simp [same] at h

theorem feedItems_eq_of_sameItems : ∀ {as bs : List Value}, sameItems as bs = true →
    as.length = bs.length ∧ feedItems as = feedItems bs
  | [], bs, h => by cases bs <;> simp_all [sameItems]
  | a :: as, bs, h => by
    cases bs with
    | nil => simp [sameItems] at h
    | cons b bs =>
      simp only [sameItems, Bool.and_eq_true] at h
      obtain ⟨length, items⟩ := feedItems_eq_of_sameItems h.2
      rw [feedItems, feedItems, feed_eq_of_same h.1, items]
      exact ⟨congrArg Nat.succ length, rfl⟩

end

mutual

/-- What is fed to a hash can be read back, up to equality of values. -/
theorem same_of_feed_append : ∀ {a b : Value} {s t : List Token}, feed a ++ s = feed b ++ t →
    same a b = true ∧ s = t
  | unit, b, s, t, h => by cases b <;> simp_all [feed, same]
  | bool _, b, s, t, h => by cases b <;> simp_all [feed, same]
  | int _, b, s, t, h => by cases b <;> simp_all [feed, same]
  | float _, b, s, t, h => by cases b <;> simp_all [feed, same]
  | str _, b, s, t, h => by cases b <;> simp_all [feed, same]
  | list as, b, s, t, h => by
    cases b with
    | list bs =>
      -- The length is fed before the items: it says how far the feed of the items goes.
      simp only [feed, List.cons_append, List.cons.injEq, Token.length.injEq, true_and] at h
      exact sameItems_of_feedItems_append h.1 h.2
    | _ => simp [feed] at h

theorem sameItems_of_feedItems_append : ∀ {as bs : List Value} {s t : List Token},
    as.length = bs.length → feedItems as ++ s = feedItems bs ++ t →
      sameItems as bs = true ∧ s = t
  | [], bs, s, t, length, h => by cases bs <;> simp_all [feedItems, sameItems]
  | a :: as, bs, s, t, length, h => by
    cases bs with
    | nil => simp at length
    | cons b bs =>
      simp only [feedItems, List.append_assoc] at h
      obtain ⟨first, rest⟩ := same_of_feed_append h
      obtain ⟨others, same⟩ := sameItems_of_feedItems_append (Nat.succ.inj length) rest
      exact ⟨by rw [sameItems, first, others]; rfl, same⟩

end

/-- Values are equal when they feed the same to a hash. -/
theorem same_iff_feed_eq {a b : Value} : (a == b) = true ↔ feed a = feed b := by
  refine ⟨feed_eq_of_same, fun h => ?_⟩
  exact (same_of_feed_append (congrArg (· ++ []) h)).1

instance : EquivBEq Value where
  rfl := same_iff_feed_eq.2 rfl
  symm h := same_iff_feed_eq.2 (same_iff_feed_eq.1 h).symm
  trans h h' := same_iff_feed_eq.2 ((same_iff_feed_eq.1 h).trans (same_iff_feed_eq.1 h'))

end Posterior.Value
