import Mathlib.Data.List.Induction
import Posterior.Proofs.Exploration
import Posterior.Proofs.History

/-!
# Programs that leave their effects to the driver

A program may forward an effect to the active handler by itself, or run another program under it.
Most programs do not: they hand over an effect together with the rest of themselves, and leave it to
the driver to forward the one and to resume the other. Then all that passes between the driver and
the strategy of an inference is a conversation of effects and answers, one after the other, that goes
on as long as the answers are continuations. It ends when the strategy rejects an effect or halts the
run, or when a continuation fails.

## Main definitions

* `Action.Defers`, `Deferring` — programs that leave their effects to the driver
* `Run.HandsBack` — strategies that go on with continuations of the program
* `Run.Conversation` — effects and answers, and what they come to
* `Run.answered`, `Run.asked` — what a strategy answers, and what a handler is asked during a run

## Main results

* `Run.asked_inferMoments` — the strategy of an inference answers as it is told
* `Run.exists_conversation` — the run of a program that leaves its effects to the driver
-/

namespace Posterior

variable {X : Type} {S : Type → Type} {K : Type}

/-- What an effect goes on with satisfies `P`. -/
def Step.Within (P : K → Prop) : Step X K → Prop
  | draw k _ _ => P k
  | weight k _ => P k
  | exit _ => True

/-- The computation performs an effect, fails, displays a value, looks at the router or infers
another program, whatever that does, and what it goes on with satisfies `P`. -/
def Action.Defers (P : K → Prop) : Action X S K → Prop
  | perform step => step.Within P
  | fail _ => True
  | display _ k => P k
  | probe next => ∀ view, P (next view)
  | infer _ _ next => ∀ d, P (next d)
  | run _ _ => False
  | drive _ _ => False
  | dispatch _ _ => False

/-- Whatever is resumed leaves its effects to the driver again. -/
def Deferring (X : Type) (S : Type → Type) {K : Type} [Resumable X S K] (P : K → Prop) : Prop :=
  ∀ k v, P k → (Resumable.resume k v : Action X S K).Defers P

namespace Run

/-! ### Before the next effect -/

section Advance

variable [Strategy X S] [Resumable X S K] {P : K → Prop} {a : Action X S K} {r : Router X S K}

theorem within_of_advance (deferring : Deferring X S P) {fuel : Nat}
    (defers : a.Defers P) {step : Step X K} {q : Router X S K}
    (run : advance fuel a r = some (.ok step, q)) : step.Within P := by
  induction fuel generalizing a r with
  | zero => simp [advance] at run
  | succ fuel ih =>
    cases a with
    | perform step' => cases run; exact defers
    | fail e => cases run
    | display v k => exact ih (deferring k _ defers) run
    | probe next => exact ih (deferring _ _ (defers r.view)) run
    | infer s p next =>
      rw [advance] at run
      split at run
      · cases run
      · -- Whatever the inference has given, the program goes on within `P`.
        exact ih (deferring _ _ (defers _)) run
    | run | drive | dispatch => exact defers.elim

/-- The program has no effects before the one that it comes to. -/
theorem ownSteps_advanceMoments (deferring : Deferring X S P) {fuel : Nat} (n : Nat)
    (defers : a.Defers P) : ownSteps n (advanceMoments fuel n a r) = [] := by
  induction fuel generalizing a r with
  | zero => rw [advanceMoments]; rfl
  | succ fuel ih =>
    cases a with
    | perform | fail => rw [advanceMoments]; rfl
    | display v k =>
      rw [advanceMoments]
      exact ih (deferring k _ defers)
    | probe next =>
      rw [advanceMoments, ownSteps_view]
      exact ih (deferring _ _ (defers r.view))
    | infer s p next =>
      rw [advanceMoments, ownSteps_append, ownSteps_inferMoments, List.nil_append]
      split
      · rfl
      · exact ih (deferring _ _ (defers _))
    | run | drive | dispatch => exact defers.elim

end Advance

/-! ### What a strategy answers -/

/-- An effect and its answer. -/
abbrev Exchange (X K : Type) := Step X K × Result (Resumption K)

section Answers

variable [Strategy X S] {P : K → Prop} {s : S K}

/-- The effects that a strategy is told of, each with the answer that it gives. -/
def answered (s : S K) : List (Step X K) → List (Exchange X K)
  | [] => []
  | step :: steps =>
    let out := (Handler.handle (fun _ => pure Router.refusal) step s).value
    (step, out.1) :: answered out.2 steps

theorem answered_append (s : S K) (steps steps' : List (Step X K)) :
    answered s (steps ++ steps') = answered s steps ++ answered (told s steps) steps' := by
  induction steps generalizing s with
  | nil => rfl
  | cons step steps ih => rw [List.cons_append, answered, answered, ih, told_cons, List.cons_append]

@[simp] theorem map_fst_answered (s : S K) (steps : List (Step X K)) :
    (answered s steps).map Prod.fst = steps := by
  induction steps generalizing s with
  | nil => rfl
  | cons step steps ih => rw [answered, List.map_cons, ih]

@[simp] theorem length_answered (s : S K) (steps : List (Step X K)) :
    (answered s steps).length = steps.length := by
  rw [← List.length_map (f := Prod.fst), map_fst_answered]

/-- Told of effects that go on with what satisfies `P`, the strategy only ever resumes what satisfies
`P` as well. -/
def HandsBack (P : K → Prop) (s : S K) : Prop :=
  ∀ steps step k v, (∀ x ∈ steps, x.Within P) → step.Within P →
    (Handler.handle (fun _ => pure Router.refusal) step (told s steps)).value.1 =
      .ok (.resume k v) → P k

theorem handsBack_true (s : S K) : HandsBack (fun _ => True) s :=
  fun _ _ _ _ _ _ _ => trivial

theorem HandsBack.told (hands : HandsBack P s) {step : Step X K} (within : step.Within P) :
    HandsBack P (told s [step]) := by
  intro steps next k v all last resumed
  rw [← told_append] at resumed
  exact hands _ next k v (List.forall_mem_cons.2 ⟨within, all⟩) last resumed

/-- The effects that are forwarded to the handler in a cell, each with the answer that comes back. -/
def asked (i : Nat) (ms : List (Moment X S K)) : List (Exchange X K) :=
  ms.filterMap fun m => m.step?.bind fun step =>
    if m.router.active = some i then some (step, (m.router.dispatch step).1) else none

/-- Inside an inference what reaches its strategy are the effects at the first level. -/
theorem asked_of_above {r : Router X S K} {m : Moment X S K} {t : S K}
    (above : Above r m.level m.router ∨ ∃ u, m.use = .finish u)
    (found : m.strategy? r.cells.size = some t) :
    asked r.cells.size [m] = answered t (ownSteps 1 [m]) := by
  obtain ⟨level, q, use⟩ := m
  cases use with
  | view => simp [asked, ownSteps, Moment.step?, answered]
  | finish u => simp [asked, ownSteps, Moment.step?, answered]
  | dispatch step =>
    have above : Above r level q := by simpa using above
    obtain ⟨u, current⟩ := above.current
    have active := (Router.current_eq_some_iff.1 current).1
    by_cases own : level = 1
    · subst own
      have serves : Serves r.cells.size u q := current
      have same : q.strategy? r.cells.size = some u := by
        rw [Router.strategy?, serves.cell]
      obtain rfl : u = t := Option.some.inj (same.symm.trans found)
      rw [ownSteps_dispatch, ownSteps_nil, answered, answered, ← (serves.dispatch step).1]
      simp [asked, Moment.step?, active]
    · -- The effect goes to an inference that the program makes, which is above.
      have pos := above.pos
      have other : q.active ≠ some r.cells.size := by
        rw [active, ne_eq, Option.some.injEq]
        omega
      simp [asked, ownSteps, Moment.step?, answered, own, other]

variable [Resumable X S K]

/-- The effects that reach the strategy of an inference are those of its program, and they are
answered as the effects before have made the strategy. -/
theorem asked_inferMoments (fuel : Nat) (s : S K) (a : Action X S K) (r : Router X S K) :
    asked r.cells.size (inferMoments fuel 0 s a r) =
      answered (Strategy.start s).value (ownSteps 1 (inferMoments fuel 0 s a r)) := by
  -- The induction is on how much of the run is over.
  have upTo : ∀ before after, inferMoments fuel 0 s a r = before ++ after →
      asked r.cells.size before = answered (Strategy.start s).value (ownSteps 1 before) := by
    intro before
    induction before using List.reverseRecOn with
    | nil =>
      intro after split
      rfl
    | append_singleton before m ih =>
      intro after split
      rw [List.append_assoc, List.singleton_append] at split
      have member : m ∈ inferMoments fuel 0 s a r := by simp [split]
      have last := asked_of_above (above_of_mem_inferMoments member) (strategy?_of_moments split)
      rw [asked, List.filterMap_append, ← asked, ← asked, ih _ split, last, ownSteps_append,
        answered_append]
  exact upTo _ [] (List.append_nil _).symm

end Answers

/-! ### The conversation of a run -/

/-- Effects with their answers, each after the first resumed by the answer before, and what they come
to. -/
inductive Conversation : List (Exchange X K) → Result (Option Value) → Prop
  /-- The program fails before its next effect. -/
  | failed (e : Failure) : Conversation [] (.error e)
  /-- The strategy rejects an effect. -/
  | rejected (step : Step X K) (e : Failure) : Conversation [(step, .error e)] (.error e)
  /-- The strategy halts the run. -/
  | halted (step : Step X K) (v : Option Value) : Conversation [(step, .ok (.halt v))] (.ok v)
  /-- The strategy answers with a continuation, and the driver goes on with that. -/
  | resumed (step : Step X K) (k : K) (v : Value) {rest : List (Exchange X K)}
    {outcome : Result (Option Value)} : Conversation rest outcome →
      Conversation ((step, .ok (.resume k v)) :: rest) outcome

variable [Strategy X S] [Resumable X S K] {P : K → Prop} {s : S K} {i n level fuel more : Nat}
  {a : Action X S K} {step : Step X K} {r q : Router X S K} {x : Result (Option Value)}

/-- What an effect and its answers come to is the outcome of the run, and a run that was halted has
reported last how many effects there were, after the given number before. -/
structure Driven (s : S K) (n : Nat) (steps : List (Step X K)) (x : Result (Option Value))
    (q : Router X S K) : Prop where
  conversation : Conversation (answered s steps) x
  counted : ∀ w, x = .ok w → q.events.back? = some (.halted (n + steps.length))

omit [Resumable X S K] in
/-- An effect before others that were driven. -/
theorem Driven.cons {steps : List (Step X K)} {k : K} {v : Value}
    (answer : (Handler.handle (fun _ => pure Router.refusal) step s).value.1 = .ok (.resume k v))
    (driven : Driven (told s [step]) (n + 1) steps x q) : Driven s n (step :: steps) x q where
  conversation := by
    rw [answered, answer]
    exact .resumed step k v driven.conversation
  counted w halted := by
    rw [driven.counted w halted, List.length_cons, Nat.add_assoc, Nat.add_comm 1]

/-- A continuation has no effects but the one that it comes to and what follows from that. -/
theorem driven_goOn (deferring : Deferring X S P) (defers : a.Defers P) (serves : Serves i s r)
    (effects : ∀ {step : Step X K} {p : Router X S K}, step.Within P → Serves i s p →
      drive more n step p = some (x, q) →
      Driven s n (ownSteps level (driveMoments more level n step p)) x q)
    (run : goOn fuel more n a r = some (x, q)) :
    Driven s n (ownSteps level (goOnMoments fuel more level n a r)) x q := by
  have quiet : ownSteps level (advanceMoments fuel level a r) = [] :=
    ownSteps_advanceMoments deferring level defers
  rw [goOnMoments, ownSteps_append, quiet, List.nil_append]
  rcases exists_of_goOn run with ⟨e, failed, rfl⟩ | ⟨step, p, reached, rest⟩
  · rw [failed]
    refine ⟨.failed e, ?_⟩
    intro w ended
    cases ended
  · rw [reached]
    -- Nothing has been told to the strategy on the way.
    have later := ((historical fuel).advance (n := level) serves).2 _ reached
    rw [quiet, told_nil] at later
    exact effects (within_of_advance deferring defers reached) later rest

/-- An effect and all that it leads to is a conversation. -/
theorem driven_drive (deferring : Deferring X S P) (hands : HandsBack P s) (within : step.Within P)
    (serves : Serves i s r) (run : drive fuel n step r = some (x, q)) :
    Driven s n (ownSteps level (driveMoments fuel level n step r)) x q := by
  induction fuel generalizing n step s r with
  | zero => simp [drive] at run
  | succ fuel ih =>
    obtain ⟨answer, after⟩ := serves.dispatch step
    cases dispatched : (r.dispatch step).1 with
    | error e =>
      rw [dispatched] at answer
      rw [drive_of_error dispatched] at run
      cases run
      rw [driveMoments_of_not_resume (by simp [dispatched]), ownSteps_dispatch, ownSteps_nil]
      refine ⟨?_, ?_⟩
      · rw [answered, ← answer]
        exact .rejected step e
      · intro w ended
        cases ended
    | ok resumption =>
      rw [dispatched] at answer
      cases resumption with
      | halt v =>
        rw [drive_of_halt dispatched] at run
        cases run
        rw [driveMoments_of_not_resume (by simp [dispatched]), ownSteps_dispatch, ownSteps_nil]
        refine ⟨?_, ?_⟩
        · rw [answered, ← answer]
          exact .halted step v
        · intro w _
          exact Array.back?_push
      | resume k v =>
        rw [drive_of_resume dispatched] at run
        rw [driveMoments_of_resume dispatched, ownSteps_dispatch]
        -- What the strategy goes on with leaves its effects to the driver again.
        have resumed : P k := hands [] step k v (by simp) within answer.symm
        apply Driven.cons answer.symm
        exact driven_goOn deferring (deferring k v resumed) (after.events _)
          (fun within' serves' rest => ih (hands.told within) within' serves' rest) run

theorem driven_complete (deferring : Deferring X S P) (hands : HandsBack P s) (defers : a.Defers P)
    (serves : Serves i s r) (run : complete fuel a r = some (x, q)) :
    Driven s 0 (ownSteps level (completeMoments fuel level a r)) x q := by
  cases fuel with
  | zero => simp [complete] at run
  | succ fuel =>
    rw [complete_succ] at run
    rw [completeMoments_succ]
    exact driven_goOn deferring defers serves
      (fun within serves' rest => driven_drive deferring hands within serves' rest) run

/-! ### Inference -/

end Run

/-- The program leaves its effects to the driver, and so does whatever the strategy may go on with
once it is started. -/
def Action.Deferred [Strategy X S] [Resumable X S K] (a : Action X S K) (s : S K) : Prop :=
  ∃ P : K → Prop, a.Defers P ∧ Deferring X S P ∧ Run.HandsBack P (Strategy.start s).value

section Inference

variable [Strategy X S] [Resumable X S K] {a : Action X S K} {s : S K}

/-- If all continuations leave their effects to the driver, then it makes no difference which of them
the strategy goes on with. -/
theorem Action.deferred_of_forall (defers : a.Defers fun _ => True)
    (all : ∀ k v, (Resumable.resume k v : Action X S K).Defers fun _ => True) : a.Deferred s :=
  ⟨fun _ => True, defers, fun k v _ => all k v, Run.handsBack_true _⟩

namespace Run

/-- The run of a program that leaves its effects to the driver. If it is inferred to the end, then
the effects that have reached the strategy and their answers come to what the program has ended with,
and a run that was halted has reported their number last. -/
theorem exists_conversation {fuel : Nat} {r : Router X S K} {out} (deferred : a.Deferred s)
    (run : infer (fuel + 1) s a r = some out) :
    ∃ x q, complete fuel a (r.enter s).2 = some (x, q) ∧
      out = conclude (Handler.name (Strategy.start s).value)
        (told (Strategy.start s).value (ownSteps 1 (inferMoments (fuel + 1) 0 s a r))) x
        (q.leave (r.enter s).1) ∧
      Conversation (asked r.cells.size (inferMoments (fuel + 1) 0 s a r)) x ∧
      ∀ w, x = .ok w → q.events.back? =
        some (.halted (asked r.cells.size (inferMoments (fuel + 1) 0 s a r)).length) := by
  obtain ⟨P, defers, deferring, hands⟩ := deferred
  obtain ⟨x, q, inner, concluded⟩ := conclude_of_infer run
  have driven : Driven (Strategy.start s).value 0
      (ownSteps 1 (completeMoments fuel 1 a (r.enter s).2)) x q :=
    driven_complete deferring hands defers (serves_enter s r) inner
  rw [← ownSteps_inferMoments_succ] at driven
  refine ⟨x, q, inner, concluded, ?_, ?_⟩
  · rw [asked_inferMoments]
    exact driven.conversation
  · intro w halted
    rw [driven.counted w halted, asked_inferMoments, length_answered, Nat.zero_add]

end Run

end Inference

end Posterior
