import Posterior.Distribution.Standard
import Posterior.Proofs.Tally

/-!
# The phase that a search reports

A search that is asked where it stands looks at a mark first, and only then at the paths that wait.
The mark is set when a path is needed and none is left; nothing but a start takes it away. A run is
over by then, but whoever holds the search can hand it more effects. A constraint or the end of a
path leaves no path waiting, and neither does a choice that goes on with a single value. A choice
with more values does: the search explores again and has paths waiting, while it reports that there
are none left.

## Main definitions

* `Enumeration.Call` — what a search can be asked to do
* `Enumeration.RanDry` — no path was left when one was needed, after the last start
* `Enumeration.PhaseFits` — the reported phase matches the paths that wait

## Main results

* `Enumeration.done_calls_iff` — when the mark is set
* `Enumeration.phaseFits_call_iff` — what one call does to a phase that fits
* `Enumeration.phase_calls` — the phase after any calls in any order
-/

namespace Posterior.Enumeration

variable {X : Type} {K : Type}

/-- What a search can be asked to do. -/
inductive Call (X K : Type) where
  /-- To forget what earlier runs left behind. -/
  | start
  /-- To handle an effect. -/
  | perform (step : Step X K)
  /-- To give its result. -/
  | finish

/-- The reported phase matches the paths that wait. -/
structure PhaseFits (e : Enumeration X K) : Prop where
  done : e.phase = .done → e.pending = []
  queued : e.phase = .queued ↔ e.pending ≠ []

variable {e : Enumeration X K} {c : Call X K} {cs : List (Call X K)} {step : Step X K}

theorem phase_eq_queued_iff : e.phase = .queued ↔ e.done = false ∧ e.pending ≠ [] := by
  cases done : e.done <;> cases pending : e.pending <;> simp [phase, done, pending]

theorem phaseFits_iff : e.PhaseFits ↔ (e.done = true → e.pending = []) := by
  constructor
  · intro fits done
    exact fits.done (phase_eq_done_iff.2 done)
  · intro empty
    refine ⟨fun done => empty (phase_eq_done_iff.1 done), ?_⟩
    rw [phase_eq_queued_iff, and_iff_right_iff_imp]
    intro waiting
    exact Bool.eq_false_iff.2 fun done => waiting (empty done)

/-! ### One call -/

theorem next_eq_halt_iff : e.next.value.1 = .halt none ↔ e.pending = [] := by
  cases pending : e.pending with
  | nil => simp [next_of_nil pending]
  | cons alt rest => simp [next_of_cons pending]

theorem done_next_iff : e.next.value.2.done = true ↔ e.done = true ∨ e.pending = [] := by
  cases pending : e.pending with
  | nil => simp [next_of_nil pending]
  | cons alt rest => simp [next_of_cons pending]

theorem pending_next (e : Enumeration X K) : e.next.value.2.pending = e.pending.tail := by
  cases pending : e.pending with
  | nil => rw [next_of_nil pending, List.tail_nil]; exact pending
  | cons alt rest => rw [next_of_cons pending]; rfl

variable [Scalar X]

/-- What a search makes of a call. -/
def call (e : Enumeration X K) : Call X K → Enumeration X K
  | .start => (Strategy.start e).value
  | .perform step => (e.handle step).value.2
  | .finish => e.finish.value.2

/-- What a search makes of calls, one after the other. -/
def calls (e : Enumeration X K) (cs : List (Call X K)) : Enumeration X K := cs.foldl call e

/-- Since the last start an effect was answered with a halt: no path was left when one was needed. -/
def RanDry (e : Enumeration X K) (cs : List (Call X K)) : Prop :=
  ∃ before step after, cs = before ++ .perform step :: after ∧ .start ∉ after ∧
    ((e.calls before).handle step).value.1 = .ok (.halt none)

/-- The mark is set by the effect that is answered with a halt. -/
theorem done_handle_iff :
    (e.handle step).value.2.done = true ↔
      e.done = true ∨ (e.handle step).value.1 = .ok (.halt none) := by
  rcases handle_cases e step with ⟨err, handled⟩ | ⟨k, l, -, -, handled⟩ |
    ⟨k, d, params, cs, -, -, handled⟩ | ⟨v, -, handled⟩
  · simp [handled]
  · simp [handled]
  · rw [handled, done_next_iff, Except.ok.injEq, next_eq_halt_iff]
    rfl
  · rw [handled, done_next_iff, Except.ok.injEq, next_eq_halt_iff]
    rfl

/-- A choice that a search is done with before it comes up leaves all of its values waiting but the
one that is taken; nothing else leaves anything waiting. -/
theorem pending_handle_eq_nil_iff (empty : e.pending = []) :
    (e.handle step).value.2.pending = [] ↔
      ((e.handle step).value.1.isOk = true → step.alternatives ≤ 1) := by
  cases step with
  | draw k d params =>
    cases split : split k d params e.score with
    | error err => simp [handle_draw_of_error split, empty, Except.isOk, Except.toBool]
    | ok found =>
      have length := length_of_split split
      rw [handle_draw_of_ok split, pending_next, ← List.length_eq_zero_iff, List.length_tail]
      simp [forked, empty, length, Step.alternatives, Except.isOk, Except.toBool]
      omega
  | weight k l =>
    cases fine : acceptable l with
    | false => simp [handle_weight_of_not_acceptable fine, empty, Step.alternatives]
    | true => simp [handle_weight_of_acceptable fine, empty, Step.alternatives]
  | exit v => simp [handle_exit, pending_next, ended, empty, Step.alternatives]

/-- A search that is not done yet reports a phase that fits after every call. -/
theorem phaseFits_handle (going : e.done = false) : (e.handle step).value.2.PhaseFits := by
  rw [phaseFits_iff, done_handle_iff, or_iff_right (by simp [going])]
  rcases handle_cases e step with ⟨err, handled⟩ | ⟨k, l, -, -, handled⟩ |
    ⟨k, d, params, cs, -, -, handled⟩ | ⟨v, -, handled⟩
  · simp [handled]
  · simp [handled]
  all_goals
    rw [handled, Except.ok.injEq, next_eq_halt_iff, pending_next]
    intro empty
    rw [empty, List.tail_nil]

/-- A phase that fits does so after a call, unless the call is a choice with several values and the
search was done. -/
theorem phaseFits_call_iff (fits : e.PhaseFits) :
    (e.call c).PhaseFits ↔ (e.done = true → ∀ step, c = .perform step →
      (e.handle step).value.1.isOk = true → step.alternatives ≤ 1) := by
  cases c with
  | start =>
    refine iff_of_true (phaseFits_iff.2 ?_) fun _ step same => by cases same
    exact fun done => absurd done (by simp [call, Strategy.start, fresh])
  | finish =>
    obtain ⟨m, finished⟩ := exists_finish e
    have empty := phaseFits_iff.1 fits
    refine iff_of_true (phaseFits_iff.2 ?_) fun _ step same => by cases same
    rw [call, finished]
    exact empty
  | perform step =>
    cases done : e.done with
    | false => exact iff_of_true (phaseFits_handle done) fun going => by cases going
    | true =>
      have empty := phaseFits_iff.1 fits done
      have marked : (e.call (.perform step)).done = true := done_handle_iff.2 (.inl done)
      rw [phaseFits_iff]
      simp only [marked, forall_const, Call.perform.injEq, forall_eq']
      exact pending_handle_eq_nil_iff empty

/-! ### Any calls in any order -/

theorem calls_append_singleton (e : Enumeration X K) (cs : List (Call X K)) (c : Call X K) :
    e.calls (cs ++ [c]) = (e.calls cs).call c := List.foldl_append

/-- A search has run dry after a call if it had before or the call does it, unless it starts anew. -/
theorem ranDry_append_singleton :
    e.RanDry (cs ++ [c]) ↔ c ≠ .start ∧ (e.RanDry cs ∨ ∃ step, c = .perform step ∧
      ((e.calls cs).handle step).value.1 = .ok (.halt none)) := by
  constructor
  · rintro ⟨before, step, after, split, since, halted⟩
    rcases List.eq_nil_or_concat after with rfl | ⟨after, last, rfl⟩
    · obtain ⟨rfl, same⟩ := List.append_inj' split rfl
      obtain rfl := List.head_eq_of_cons_eq same
      exact ⟨by simp, .inr ⟨step, rfl, halted⟩⟩
    · rw [List.concat_eq_append] at split since
      have ends : cs ++ [c] = (before ++ .perform step :: after) ++ [last] := by simpa using split
      obtain ⟨rfl, same⟩ := List.append_inj' ends rfl
      obtain rfl := List.head_eq_of_cons_eq same
      refine ⟨fun start => since (by simp [start]), .inl ⟨before, step, after, rfl, ?_, halted⟩⟩
      exact fun start => since (List.mem_append_left _ start)
  · rintro ⟨other, ⟨before, step, after, rfl, since, halted⟩ | ⟨step, rfl, halted⟩⟩
    · refine ⟨before, step, after ++ [c], by simp, fun start => ?_, halted⟩
      rcases List.mem_append.1 start with start | start
      · exact since start
      · exact other (List.mem_singleton.1 start).symm
    · exact ⟨cs, step, [], rfl, List.not_mem_nil, halted⟩

/-- The mark is set exactly if the search has run dry since it was last started. -/
theorem done_calls_iff (going : e.done = false) : (e.calls cs).done = true ↔ e.RanDry cs := by
  induction cs using List.reverseRecOn with
  | nil =>
    refine iff_of_false (by simp [calls, going]) ?_
    rintro ⟨before, step, after, split, -⟩
    simp at split
  | append_singleton cs c ih =>
    rw [calls_append_singleton, ranDry_append_singleton, ← ih]
    cases c with
    | start => simp [call, Strategy.start, fresh]
    | perform step => simp [call, done_handle_iff]
    | finish =>
      obtain ⟨m, finished⟩ := exists_finish (e.calls cs)
      simp [call, finished]

/-- The phase fits throughout exactly if no choice with several values finds a search that is done. -/
theorem forall_phaseFits_calls_iff (fits : e.PhaseFits) :
    (∀ before, before <+: cs → (e.calls before).PhaseFits) ↔
      ∀ before step after, cs = before ++ .perform step :: after →
        (e.calls before).done = true → ((e.calls before).handle step).value.1.isOk = true →
          step.alternatives ≤ 1 := by
  induction cs generalizing e with
  | nil =>
    refine iff_of_true (fun before start => ?_) fun before step after split => by simp at split
    rw [List.prefix_nil.1 start]
    exact fits
  | cons c cs ih =>
    constructor
    · intro all before step after split
      have one : (e.call c).PhaseFits := all [c] (List.cons_prefix_cons.2 ⟨rfl, List.nil_prefix⟩)
      cases before with
      | nil =>
        obtain ⟨rfl, -⟩ := List.cons.inj split
        exact fun done => (phaseFits_call_iff fits).1 one done step rfl
      | cons b before =>
        obtain ⟨rfl, later⟩ := List.cons.inj split
        refine (ih one).1 (fun before start => ?_) before step after later
        exact all (c :: before) (List.cons_prefix_cons.2 ⟨rfl, start⟩)
    · intro few before start
      have one : (e.call c).PhaseFits := by
        refine (phaseFits_call_iff fits).2 fun done step same => ?_
        exact few [] step cs (by rw [same]; rfl) done
      rcases List.prefix_cons_iff.1 start with rfl | ⟨rest, rfl, later⟩
      · exact fits
      · refine (ih one).2 (fun before step after split => ?_) rest later
        exact few (c :: before) step after (by rw [split]; rfl)

/-- The phase of a search after any calls in any order. The search reports that it is done exactly
if it has run dry since it was last started, and that it is queued exactly if it has not and paths
wait. So the phase matches the paths that wait, all along the calls, exactly if no choice that goes
on with several values is handled after the search has run dry and before it is started again. -/
theorem phase_calls (report : Bool) (cs : List (Call X K)) :
    (((fresh report).calls cs).phase = .done ↔ (fresh report).RanDry cs) ∧
    (((fresh report).calls cs).phase = .queued ↔
      ¬ (fresh report).RanDry cs ∧ ((fresh report).calls cs).pending ≠ []) ∧
    ((∀ before, before <+: cs → ((fresh report).calls before).PhaseFits) ↔
      ∀ before step after, cs = before ++ .perform step :: after → (fresh report).RanDry before →
        (((fresh report).calls before).handle step).value.1.isOk = true → step.alternatives ≤ 1) := by
  have going : (fresh report : Enumeration X K).done = false := rfl
  refine ⟨?_, ?_, ?_⟩
  · rw [phase_eq_done_iff, done_calls_iff going]
  · rw [phase_eq_queued_iff, ← done_calls_iff going, Bool.not_eq_true]
  · have fits : (fresh report : Enumeration X K).PhaseFits := phaseFits_iff.2 fun _ => rfl
    rw [forall_phaseFits_calls_iff fits]
    simp only [done_calls_iff going]

/-- A choice between two values is handled after the only path has ended: one of them waits, and the
search still reports that it is done. -/
theorem waiting_of_late_choice :
    ((fresh false : Enumeration Float Unit).calls [.start, .perform (.exit .unit),
      .perform (.draw () .bernoulli [.float 0.5])]).phase = .done ∧
    ((fresh false : Enumeration Float Unit).calls [.start, .perform (.exit .unit),
      .perform (.draw () .bernoulli [.float 0.5])]).pending.length = 1 := by
  decide +kernel

end Posterior.Enumeration
