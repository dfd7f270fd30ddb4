import Mathlib.Tactic.Common
import Posterior.Strategy.Enumeration

/-!
# Effects that fail

A search checks all that a choice needs before it touches anything: that the support can be listed,
that there are scores at all, the support itself, and then the score of one value after the other.
What fails first is the failure of the choice, and by then nothing has been queued or counted,
however many values have been scored before. The same goes for a weight that makes no sense.

## Main definitions

* `Enumeration.Fails` — the failures of an effect, with all that has been checked before

## Main results

* `Enumeration.split_eq_error_iff` — why a choice cannot be split
* `Enumeration.handle_fails` — an effect that fails leaves the search as it was
-/

namespace Posterior

variable {X K : Type} [Scalar X]

namespace Enumeration

/-- The failure of an effect is that of the first check that it does not pass. -/
inductive Fails : Step X K → Failure → Prop
  /-- The support of a choice has to be there. -/
  | noSupport {k d params} : d.has .support = false →
    Fails (.draw k d params) (.unsupportedEffect "enumerate" .draw
      ("distribution " ++ d.name ++ " cannot list its support"))
  /-- Then there have to be scores. -/
  | noScore {k d params} : d.has .support = true → d.has .score = false →
    Fails (.draw k d params) (.missingCapability d.name .score)
  /-- Then the support has to be listed. -/
  | support {k d params err} : d.has .support = true → d.has .score = true →
    d.support params = .error err → Fails (.draw k d params) err
  /-- Then all values of the support have to be scored, from the first to the last. -/
  | score {k d params before v after err} : d.has .score = true →
    d.support params = .ok (before ++ v :: after) →
    (∀ u ∈ before, ∃ l, d.score params u = .ok l) → d.score params v = .error err →
    Fails (.draw k d params) err
  /-- A weight has to be a finite number or minus infinity. -/
  | weight {k l} : Scalar.isNaN l = true ∨ Scalar.eq l Scalar.posInf = true →
    Fails (.weight k l)
      (.arithmetic ("log-weight " ++ Scalar.text l ++ " is not a finite number or -inf"))

variable {k : K} {d : Distribution X} {params vs : List Value} {score l : X} {err : Failure}

/-- Values cannot be scored if one of them cannot, and the failure is that of the first. -/
theorem alternatives_eq_error_iff :
    alternatives k d params score vs = .error err ↔ ∃ before v after, vs = before ++ v :: after ∧
      (∀ u ∈ before, ∃ l, d.score params u = .ok l) ∧ d.score params v = .error err := by
  induction vs with
  | nil => simp [alternatives]
  | cons v vs ih =>
    rw [alternatives]
    cases scored : d.score params v with
    | error e =>
      -- Nothing is scored behind the first value that cannot be.
      constructor
      · intro failed
        obtain rfl := Except.error.inj failed
        exact ⟨[], v, vs, rfl, fun u hu => absurd hu List.not_mem_nil, scored⟩
      · rintro ⟨before, u, after, parts, passed, failed⟩
        rcases List.cons_eq_append_iff.1 parts with ⟨rfl, rest⟩ | ⟨before, rfl, -⟩
        · obtain ⟨rfl, -⟩ := List.cons.inj rest
          rw [scored] at failed
          obtain rfl := Except.error.inj failed
          rfl
        · obtain ⟨l, found⟩ := passed v List.mem_cons_self
          rw [scored] at found
          cases found
    | ok l =>
      -- The score is lost with the rest if one of the values behind cannot be scored.
      simp only [map_eq_error_iff, ih]
      constructor
      · rintro ⟨before, u, after, rfl, passed, failed⟩
        exact ⟨v :: before, u, after, rfl, List.forall_mem_cons.2 ⟨⟨l, scored⟩, passed⟩, failed⟩
      · rintro ⟨before, u, after, parts, passed, failed⟩
        rcases List.cons_eq_append_iff.1 parts with ⟨rfl, rest⟩ | ⟨before, rfl, rest⟩
        · obtain ⟨rfl, -⟩ := List.cons.inj rest
          rw [scored] at failed
          cases failed
        · exact ⟨before, u, after, rest, (List.forall_mem_cons.1 passed).2, failed⟩

/-- A choice cannot be split because of the first check that it does not pass. -/
theorem split_eq_error_iff :
    split k d params score = .error err ↔ Fails (.draw k d params) err := by
  unfold split
  constructor
  · intro failed
    split at failed
    · next listable =>
      cases scorable : d.has .score with
      | false =>
        simp only [Distribution.require, scorable] at failed
        cases failed
        exact .noScore listable scorable
      | true =>
        simp only [Distribution.require, scorable, if_true] at failed
        cases listed : d.support params with
        | error e =>
          rw [listed] at failed
          obtain rfl := Except.error.inj failed
          exact .support listable scorable listed
        | ok vs =>
          rw [listed] at failed
          obtain ⟨before, v, after, rfl, passed, failed⟩ := alternatives_eq_error_iff.1 failed
          exact .score scorable listed passed failed
    · next unlistable =>
      cases failed
      exact .noSupport (Bool.eq_false_iff.2 unlistable)
  · intro fails
    cases fails with
    | noSupport unlistable => simp [unlistable, Enumeration.noSupport]
    | noScore listable unscorable =>
      simp [listable, Distribution.require, unscorable]
      rfl
    | support listable scorable failed =>
      simp only [listable, if_true, Distribution.require, scorable, failed]
      rfl
    | score scorable listed passed failed =>
      -- A support that has been listed is there.
      have listable : d.has .support = true := by
        cases none : d.support? with
        | none => simp [Distribution.support, none] at listed
        | some f => simp [Distribution.has, none]
      simp only [listable, if_true, Distribution.require, scorable, listed]
      exact alternatives_eq_error_iff.2 ⟨_, _, _, rfl, passed, failed⟩

theorem acceptable_eq_false_iff :
    acceptable l = false ↔ Scalar.isNaN l = true ∨ Scalar.eq l Scalar.posInf = true := by
  rw [acceptable, Bool.not_eq_false', Bool.or_eq_true]

variable {e : Enumeration X K} {step : Step X K}

/-- A check that is not passed is answered with its failure, and that is all. -/
theorem Fails.handle_eq (fails : Fails step err) : e.handle step = pure (.error err, e) := by
  cases step with
  | draw k d params =>
    have unsplit : split k d params e.score = .error err := split_eq_error_iff.2 fails
    simp only [handle, unsplit]
  | weight k l =>
    cases fails with
    | weight senseless =>
      have rejected := acceptable_eq_false_iff.2 senseless
      simp only [handle, rejected, Bool.false_eq_true, if_false]
  | exit v => nomatch fails

/-- No other failure is ever the answer. -/
theorem fails_of_handle (failed : (e.handle step).value.1 = .error err) : Fails step err := by
  cases step with
  | draw k d params =>
    rw [handle] at failed
    split at failed
    · next err' unsplit =>
      obtain rfl : err' = err := Except.error.inj failed
      exact split_eq_error_iff.1 unsplit
    · cases failed
  | weight k l =>
    rw [handle] at failed
    split at failed
    · cases failed
    · next rejected =>
      cases failed
      exact .weight (acceptable_eq_false_iff.1 (Bool.eq_false_iff.2 rejected))
  | exit v => cases failed

/-- An effect fails with the failure of the first check that it does not pass, and then that is all:
the score, the paths that wait, the marginal, the counters and the phase of the search are as they
were, and nothing is reported. -/
theorem handle_fails (e : Enumeration X K) (step : Step X K) (err : Failure) :
    ((e.handle step).value.1 = .error err ↔ Fails step err) ∧
      (Fails step err ↔ e.handle step = pure (.error err, e)) := by
  have failed (answer : e.handle step = pure (.error err, e)) :
      (e.handle step).value.1 = .error err := by rw [answer]; rfl
  constructor
  · constructor
    · intro refused
      exact fails_of_handle refused
    · intro fails
      exact failed fails.handle_eq
  · constructor
    · intro fails
      exact fails.handle_eq
    · intro answer
      exact fails_of_handle (failed answer)

/-- The second of three values cannot be scored. The first one does not wait either. -/
example (e : Enumeration X K) (k : K) :
    let d : Distribution X := {
      name := "partial"
      support? := some fun _ => .ok [.int 0, .int 1, .int 2]
      score? := some fun _ v => if v == .int 0 then .ok Scalar.zero else .error (.arithmetic "lost") }
    e.handle (.draw k d []) = pure (.error (.arithmetic "lost"), e) := rfl

end Enumeration

end Posterior
