import Posterior.Proofs.Agenda
import Posterior.Proofs.DirectSampling
import Posterior.Proofs.Reentrance

/-!
# No violation of the protocol

There are three ways in which a run under a strategy of this library could violate the protocol
between programs and handlers: the strategy gives the program's value back, enumeration is asked for
the result while paths wait, or forward sampling is asked before the program has ended. None of them
is possible, for both strategies halt a run only when they have all they need. For the same reason a
program that is run under one of them never gets its value back.

So an inference reports a violation only if it was handed one: by a continuation that returns one,
or by a distribution whose own function does.

## Main definitions

* `Builtin.Settled` — all that the result needs is there
* `Action.Compliant` — programs that return no violation by themselves

## Main results

* `Run.settled_of_drive` — a run that is halted has given no value back, and its strategy is settled
* `Run.infer_lawful` — inference reports no violation of the protocol
-/

namespace Posterior

variable {X : Type} {S T : Type → Type} {K : Type}

/-- The result is not a violation of the protocol. -/
def Lawful {α : Type} (d : Result α) : Prop := ∀ m, d ≠ .error (.protocolViolation m)

theorem lawful_ok {α : Type} (x : α) : Lawful (.ok x) := by
  intro m violation
  cases violation

theorem lawful_error_iff {α : Type} {e : Failure} :
    Lawful (.error e : Result α) ↔ ∀ m, e ≠ .protocolViolation m := by
  simp only [Lawful, ne_eq, Except.error.injEq]

/-! ### The strategies of this library -/

namespace Builtin

/-- What the result is made of is there: no path waits, or a value has been kept. -/
def Settled : Builtin X T K → Prop
  | enumeration s => s.pending = []
  | sampling s => s.result.isSome
  | other _ => False

/-- The continuations of the paths that wait satisfy `P`. -/
def Keeps (P : K → Prop) : Builtin X T K → Prop
  | enumeration s => ∀ alt ∈ s.pending, P alt.k
  | _ => True

end Builtin

namespace Enumeration

variable {P : K → Prop} {e : Enumeration X K}

/-- Taking the next path halts the search only if there is none. -/
theorem pending_of_next_halt {w : Option Value} (halted : e.next.value.1 = .halt w) :
    w = none ∧ e.next.value.2.pending = [] := by
  cases pending : e.pending with
  | nil =>
    rw [next_of_nil pending] at halted ⊢
    cases halted
    exact ⟨rfl, pending⟩
  | cons alt rest =>
    rw [next_of_cons pending] at halted
    cases halted

theorem forall_pending_next (kept : ∀ alt ∈ e.pending, P alt.k) :
    (∀ alt ∈ e.next.value.2.pending, P alt.k) ∧
      ∀ k v, e.next.value.1 = .resume k v → P k := by
  cases pending : e.pending with
  | nil =>
    rw [next_of_nil pending]
    refine ⟨kept, fun k v resumed => ?_⟩
    cases resumed
  | cons alt rest =>
    rw [pending] at kept
    obtain ⟨first, others⟩ := List.forall_mem_cons.1 kept
    rw [next_of_cons pending]
    refine ⟨others, fun k v resumed => ?_⟩
    cases resumed
    exact first

variable [Scalar X] {step : Step X K}

theorem pending_of_handle_halt {w : Option Value}
    (halted : (e.handle step).value.1 = .ok (.halt w)) :
    w = none ∧ (e.handle step).value.2.pending = [] := by
  rcases handle_cases e step with ⟨err, handled⟩ | ⟨k, l, rfl, -, handled⟩ |
    ⟨k, d, params, cs, rfl, -, handled⟩ | ⟨v, rfl, handled⟩
  all_goals rw [handled] at halted ⊢
  · cases halted
  · cases halted
  · exact pending_of_next_halt (Except.ok.inj halted)
  · exact pending_of_next_halt (Except.ok.inj halted)

/-- Whatever goes on after an effect is the rest of the program or a path that was waiting. -/
theorem forall_pending_handle (kept : ∀ alt ∈ e.pending, P alt.k) (within : step.Within P) :
    (∀ alt ∈ (e.handle step).value.2.pending, P alt.k) ∧
      ∀ k v, (e.handle step).value.1 = .ok (.resume k v) → P k := by
  rcases handle_cases e step with ⟨err, handled⟩ | ⟨k, l, rfl, -, handled⟩ |
    ⟨k, d, params, cs, rfl, -, handled⟩ | ⟨v, rfl, handled⟩
  all_goals rw [handled]
  · refine ⟨kept, fun k v resumed => ?_⟩
    cases resumed
  · refine ⟨kept, fun k v resumed => ?_⟩
    cases resumed
    exact within
  · have waiting : ∀ alt ∈ (e.forked (cs.map (alternative k))).pending, P alt.k := by
      intro alt halt
      rcases List.mem_append.1 halt with halt | halt
      · -- The alternatives of a choice go on with what comes after the choice.
        obtain ⟨c, -, rfl⟩ := List.mem_map.1 (List.mem_reverse.1 halt)
        exact within
      · exact kept alt halt
    obtain ⟨others, first⟩ := forall_pending_next waiting
    exact ⟨others, fun k v resumed => first k v (Except.ok.inj resumed)⟩
  · obtain ⟨others, first⟩ := forall_pending_next (e := e.ended v) kept
    exact ⟨others, fun k v resumed => first k v (Except.ok.inj resumed)⟩

end Enumeration

namespace Builtin

variable [Scalar X] [Strategy X T] {P : K → Prop} {s : Builtin X T K} {step : Step X K}
  {ambient : Ambient X K}

theorem isOwn_start (own : s.IsOwn) : (Strategy.start s).value.IsOwn := by
  cases s with
  | enumeration | sampling => trivial
  | other s => exact own.elim

theorem isOwn_handle (own : s.IsOwn) : (Handler.handle ambient step s).value.2.IsOwn := by
  cases s with
  | enumeration | sampling => trivial
  | other s => exact own.elim

/-- No path waits in a search that starts. -/
theorem keeps_start (P : K → Prop) (own : s.IsOwn) : (Strategy.start s).value.Keeps P := by
  cases s with
  | enumeration s =>
    intro alt halt
    cases halt
  | sampling s => trivial
  | other s => exact own.elim

/-- The strategy gives no value back, and halts a run only when it has all that it needs. -/
theorem settled_of_handle_halt (own : s.IsOwn) {w : Option Value}
    (halted : (Handler.handle ambient step s).value.1 = .ok (.halt w)) :
    w = none ∧ (Handler.handle ambient step s).value.2.Settled := by
  cases s with
  | enumeration s => exact Enumeration.pending_of_handle_halt halted
  | sampling s =>
    change (s.handle step).value.1 = _ at halted
    change w = none ∧ (s.handle step).value.2.result.isSome
    cases step with
    | draw k d params =>
      rw [ForwardSampling.handle] at halted
      split at halted <;> cases halted
    | weight k l => cases halted
    | exit v =>
      cases halted
      exact ⟨rfl, rfl⟩
  | other s => exact own.elim

/-- What the strategy goes on with is the rest of the program or has been waiting. -/
theorem keeps_handle (ambient : Ambient X K) (own : s.IsOwn) (keeps : s.Keeps P)
    (within : step.Within P) :
    (Handler.handle ambient step s).value.2.Keeps P ∧
      ∀ k v, (Handler.handle ambient step s).value.1 = .ok (.resume k v) → P k := by
  cases s with
  | enumeration s => exact Enumeration.forall_pending_handle keeps within
  | sampling s =>
    refine ⟨trivial, fun k v resumed => ?_⟩
    change (s.handle step).value.1 = _ at resumed
    cases step with
    | draw k' d params =>
      rw [ForwardSampling.handle] at resumed
      split at resumed <;> cases resumed
      exact within
    | weight k l => cases resumed
    | exit v => cases resumed
  | other s => exact own.elim

/-- A strategy that has all it needs is not asked too early. -/
theorem lawful_finish (settled : s.Settled) : Lawful (Strategy.finish s).value.1 := by
  intro m
  cases s with
  | enumeration s =>
    change s.finish.value.1 ≠ _
    rw [Enumeration.finish_of_empty settled, Marginal.normalized]
    split
    · exact lawful_ok _ m
    · exact lawful_error_iff.2 (by simp) m
  | sampling s =>
    obtain ⟨v, kept⟩ := Option.isSome_iff_exists.1 settled
    change s.finish.1 ≠ _
    simp [ForwardSampling.finish, kept]
  | other s => exact settled.elim

end Builtin

/-- A handler that is held stays so. -/
theorem Router.Frame.exists_busy {r r' : Router X S K} (h : r.Frame r') {i : Nat}
    {c : Cell X S K} (active : r.current = some (i, c)) (busy : c.busy = true) :
    ∃ c', r'.current = some (i, c') ∧ c'.busy = true := by
  obtain ⟨activeAt, held⟩ := current_eq_some_iff.1 active
  have kept := h.busy i
  rw [held, Option.map_some, busy] at kept
  obtain ⟨c', held', busy'⟩ := Option.map_eq_some_iff.1 kept
  exact ⟨c', current_eq_some_iff.2 ⟨h.active.trans activeAt, held'⟩, busy'⟩

/-! ### A run that is halted -/

namespace Run

variable [Scalar X] [Strategy X T] {i : Nat} {s : Strategies X T K}

theorem isOwn_told (own : s.core.IsOwn) (steps : List (Step X K)) : (told s steps).core.IsOwn := by
  induction steps generalizing s with
  | nil => exact own
  | cons step steps ih =>
    rw [told_cons, Layered.handle_eq]
    exact ih (Builtin.isOwn_handle own)

variable [Resumable X (Strategies X T) K] {fuel : Nat} {r q : Router X (Strategies X T) K}
  {w : Option Value}

/-- Whatever the program has done before, a strategy of this library that halts the run of an effect
has given no value back, and is settled. -/
theorem settled_of_drive {n : Nat} {step : Step X K} (serves : Serves i s r) (own : s.core.IsOwn)
    (run : drive fuel n step r = some (.ok w, q)) :
    w = none ∧ ∃ t, Serves i t q ∧ t.core.Settled := by
  induction fuel generalizing n step s r with
  | zero => simp [drive] at run
  | succ fuel ih =>
    obtain ⟨answer, after⟩ := serves.dispatch step
    rw [told_cons, told_nil] at after
    rw [Layered.handle_eq] at answer after
    rcases answered : (r.dispatch step).1 with e | ⟨k, v⟩ | u
    · rw [drive_of_error answered] at run
      cases run
    · -- The program goes on, and the next of its effects is left to the induction.
      rw [drive_of_resume answered] at run
      rcases exists_of_goOn run with ⟨e, -, failed⟩ | ⟨next, p, reached, rest⟩
      · cases failed
      · have reported := after.events ((r.dispatch step).2.report (.resumed v)).events
        have later := ((historical fuel).advance (n := 0) reported).2 _ reached
        exact ih later (isOwn_told (Builtin.isOwn_handle own) _) rest
    · rw [drive_of_halt answered] at run
      cases run
      rw [answered] at answer
      obtain ⟨none, settled⟩ := Builtin.settled_of_handle_halt own answer.symm
      exact ⟨none, _, after.events _, settled⟩

theorem settled_of_complete {a : Action X (Strategies X T) K} (serves : Serves i s r)
    (own : s.core.IsOwn) (run : complete fuel a r = some (.ok w, q)) :
    w = none ∧ ∃ t, Serves i t q ∧ t.core.Settled := by
  cases fuel with
  | zero => simp [complete] at run
  | succ fuel =>
    rw [complete_succ] at run
    rcases exists_of_goOn run with ⟨e, -, failed⟩ | ⟨step, p, reached, rest⟩
    · cases failed
    · have later := ((historical fuel).advance (n := 0) serves).2 _ reached
      exact settled_of_drive later (isOwn_told own _) rest

/-- When the program of an inference has been halted, the strategy is asked for what it has. -/
theorem settled_of_infer {a : Action X (Strategies X T) K} (own : s.core.IsOwn)
    (run : complete fuel a (r.enter s).2 = some (.ok w, q)) :
    w = none ∧ (strategyAt q r.cells.size (Strategy.start s).value).core.Settled := by
  have started : (Strategy.start s).value.core.IsOwn := by
    rw [Layered.start_eq]
    exact Builtin.isOwn_start own
  obtain ⟨none, t, serves, settled⟩ := settled_of_complete (serves_enter s r) started run
  rw [strategyAt_of_serves serves]
  exact ⟨none, settled⟩

/-- A handler that is held refuses whatever is left of a program. -/
theorem not_ok_of_busy {c : Cell X (Strategies X T) K} (active : r.current = some (i, c))
    (busy : c.busy = true) {a : Action X (Strategies X T) K} :
    complete fuel a r ≠ some (.ok w, q) := by
  intro run
  cases fuel with
  | zero => simp [complete] at run
  | succ fuel =>
    rw [complete_succ] at run
    rcases exists_of_goOn run with ⟨e, -, failed⟩ | ⟨step, p, reached, rest⟩
    · cases failed
    · -- Whatever the program has done in between, nobody has given the handler free.
      have frame := (related_of_preserved preserved_frame fuel).advance reached
      obtain ⟨c', still, busy'⟩ := frame.exists_busy active busy
      have refused : (p.dispatch step).1 = Router.refusal := by
        rw [Router.dispatch_of_busy still busy']
      cases fuel with
      | zero => simp [drive] at rest
      | succ fuel => cases (drive_of_error refused).symm.trans rest

/-- A program that is run under a strategy of this library never gets a value back. -/
theorem run_ne_ok (own : s.core.IsOwn) {busy : Bool}
    (active : r.current = some (i, { handler := .strategy s, busy := busy }))
    {a : Action X (Strategies X T) K} {v : Value} : Run.run fuel a r ≠ some (.ok v, q) := by
  intro run
  rw [Run.run] at run
  rcases inner : complete fuel a r with _ | ⟨outcome, p⟩
  · simp [inner] at run
  · rw [inner] at run
    obtain ⟨value, rfl⟩ := Prod.mk.inj (Option.some.inj run)
    cases outcome with
    | error e => cases value
    | ok w =>
      cases busy with
      | true => exact not_ok_of_busy active rfl inner
      | false =>
        obtain ⟨rfl, -⟩ := settled_of_complete active own inner
        cases value

end Run

/-! ### Programs that return no violation -/

/-- The distribution of the effect does not fail with a violation of the protocol. -/
def Step.Harmless (step : Step X K) : Prop := ∀ m, ¬ step.Raises (.protocolViolation m)

/-- The computation performs an allowed effect, fails with something else than a violation, displays
a value, looks at the router or infers a program, and goes on with what satisfies `P`. It may pass on
what an inference has failed with: that is a violation only if the strategy is not one of this
library, or the inferred program does not satisfy `P`. -/
def Action.Complies (allowed : Step X K → Prop) (P : K → Prop) :
    Action X (Strategies X T) K → Prop
  | perform step => allowed step ∧ step.Within P
  | fail e => ∀ m, e ≠ .protocolViolation m
  | display _ k => P k
  | probe next => ∀ view, P (next view)
  | infer s p next => ∀ d, (s.core.IsOwn → P p → Lawful d) → P (next d)
  | run _ _ => False
  | drive _ _ => False
  | dispatch _ _ => False

section Programs

variable [Resumable X (Strategies X T) K] {allowed : Step X K → Prop} {P : K → Prop}

/-- Whatever is resumed again complies. -/
def Complying (allowed : Step X K → Prop) (T : Type → Type) [Resumable X (Strategies X T) K]
    (P : K → Prop) : Prop :=
  ∀ k v, P k → (Resumable.resume k v : Action X (Strategies X T) K).Complies allowed P

/-- The continuations of the program return no violation by themselves, never run, drive or forward
anything by themselves, and perform allowed effects only. -/
def Action.Compliant (allowed : Step X K → Prop) (a : Action X (Strategies X T) K) : Prop :=
  ∃ P : K → Prop, a.Complies allowed P ∧ Complying allowed T P

namespace Run

variable [Scalar X] [Strategy X T]

/-- What a complying computation comes to. -/
def Comes (P : K → Prop) : Result (Step X K) → Prop
  | .ok step => step.Harmless ∧ step.Within P
  | .error e => ∀ m, e ≠ .protocolViolation m

/-- Computations that comply do so with the given fuel. -/
structure Clean (T : Type → Type) [Strategy X T] [Resumable X (Strategies X T) K] (P : K → Prop)
    (fuel : Nat) : Prop where
  advance : ∀ {a : Action X (Strategies X T) K} {r x q}, a.Complies Step.Harmless P →
    advance fuel a r = some (x, q) → Comes P x ∧ ∃ es, q = { r with events := es }
  drive : ∀ {i} {s : Strategies X T K} {n step r x q}, Comes P (.ok step) → Serves i s r →
    s.core.IsOwn → s.core.Keeps P → drive fuel n step r = some (x, q) → Lawful x
  complete : ∀ {i} {s : Strategies X T K} {a r x q}, a.Complies Step.Harmless P → Serves i s r →
    s.core.IsOwn → s.core.Keeps P → complete fuel a r = some (x, q) → Lawful x
  infer : ∀ {s : Strategies X T K} {a r d t q}, s.core.IsOwn → a.Complies Step.Harmless P →
    infer fuel s a r = some (d, t, q) → Lawful d

section Step

variable {fuel : Nat} (ih : Clean T P fuel) {s : Strategies X T K}
  {r q : Router X (Strategies X T) K} {a : Action X (Strategies X T) K}

include ih

/-- Between two effects nothing but inferences could fail with a violation, and those do not. -/
theorem clean_advance (complying : Complying (X := X) Step.Harmless T P)
    {x : Result (Step X K)} (complies : a.Complies Step.Harmless P)
    (run : advance (fuel + 1) a r = some (x, q)) :
    Comes P x ∧ ∃ es, q = { r with events := es } := by
  cases a with
  | perform step =>
    cases run
    exact ⟨complies, _, rfl⟩
  | fail e =>
    cases run
    exact ⟨complies, _, rfl⟩
  | display v k =>
    obtain ⟨comes, es, rfl⟩ := ih.advance (complying k .unit complies) run
    exact ⟨comes, es, rfl⟩
  | probe next => exact ih.advance (complying _ .unit (complies r.view)) run
  | infer s p next =>
    rw [advance] at run
    split at run
    · cases run
    · next d t p' inferred =>
      -- The program may pass on what comes back, which the induction says is no violation where the
      -- strategy is one of this library and the inferred program complies.
      have goesOn : P (next d) :=
        complies d fun own guarded => ih.infer own (complying p .unit guarded) inferred
      obtain ⟨es, rfl⟩ : ∃ es, p' = { r with events := es } := infer_router inferred
      obtain ⟨comes, es', rfl⟩ := ih.advance (complying _ .unit goesOn) run
      exact ⟨comes, es', rfl⟩
  | run | drive | dispatch => exact complies.elim

/-- What a complying computation goes on with is left to the strategy. -/
theorem clean_goOn {i n : Nat} {x : Result (Option Value)} (complies : a.Complies Step.Harmless P)
    (serves : Serves i s r) (own : s.core.IsOwn) (keeps : s.core.Keeps P)
    (run : goOn fuel fuel n a r = some (x, q)) : Lawful x := by
  rcases exists_of_goOn run with ⟨e, failed, rfl⟩ | ⟨step, p, reached, rest⟩
  · obtain ⟨comes, -⟩ := ih.advance complies failed
    exact lawful_error_iff.2 comes
  · obtain ⟨comes, es, rfl⟩ := ih.advance complies reached
    exact ih.drive comes (serves.events es) own keeps rest

/-- The strategy fails only as the distribution does, and what it goes on with complies. -/
theorem clean_drive (complying : Complying (X := X) Step.Harmless T P) {i n : Nat}
    {step : Step X K} {x : Result (Option Value)} (comes : Comes P (.ok step))
    (serves : Serves i s r) (own : s.core.IsOwn) (keeps : s.core.Keeps P)
    (run : drive (fuel + 1) n step r = some (x, q)) : Lawful x := by
  obtain ⟨harmless, within⟩ := comes
  obtain ⟨answer, after⟩ := serves.dispatch step
  obtain ⟨kept, goesOn⟩ := Builtin.keeps_handle (fun _ => pure Router.refusal) own keeps within
  rcases answered : (r.dispatch step).1 with e | ⟨k, v⟩ | u
  all_goals rw [answered] at answer
  · rw [drive_of_error answered] at run
    cases run
    rw [lawful_error_iff]
    rintro m rfl
    exact harmless m (Layered.raises_of_handle own answer.symm trivial)
  · rw [drive_of_resume answered] at run
    rw [told_cons, told_nil] at after
    rw [Layered.handle_eq] at answer after
    exact clean_goOn ih (complying k v (goesOn k v answer.symm)) (after.events _)
      (Builtin.isOwn_handle own) kept run
  · rw [drive_of_halt answered] at run
    cases run
    exact lawful_ok u

theorem clean_complete {i : Nat} {x : Result (Option Value)}
    (complies : a.Complies Step.Harmless P) (serves : Serves i s r) (own : s.core.IsOwn)
    (keeps : s.core.Keeps P) (run : complete (fuel + 1) a r = some (x, q)) : Lawful x := by
  rw [complete_succ] at run
  exact clean_goOn ih complies serves own keeps run

/-- The strategy is asked for the result only when it has all that it needs. -/
theorem clean_infer {t : Strategies X T K} {d : Result (Distribution X)} (own : s.core.IsOwn)
    (complies : a.Complies Step.Harmless P) (run : infer (fuel + 1) s a r = some (d, t, q)) :
    Lawful d := by
  have started := Layered.start_eq s
  have serves := serves_enter s r
  rw [infer_succ] at run
  rcases inner : complete fuel a (r.enter s).2 with _ | ⟨outcome, p⟩
  · simp [inner] at run
  · have lawful : Lawful outcome := by
      refine ih.complete complies serves ?_ ?_ inner
      · rw [started]
        exact Builtin.isOwn_start own
      · rw [started]
        exact Builtin.keeps_start P own
    simp only [inner] at run
    cases outcome with
    | error e =>
      obtain ⟨rfl, -⟩ := Prod.mk.inj (Option.some.inj run)
      exact lawful_error_iff.2 (lawful_error_iff.1 lawful)
    | ok w =>
      obtain ⟨rfl, settled⟩ := settled_of_infer own inner
      obtain ⟨rfl, -⟩ := Prod.mk.inj (Option.some.inj run)
      rw [Layered.finish_eq]
      exact Builtin.lawful_finish settled

end Step

theorem clean (complying : Complying (X := X) Step.Harmless T P) (fuel : Nat) : Clean T P fuel := by
  induction fuel with
  | zero =>
    exact ⟨fun _ run => by simp [advance] at run, fun _ _ _ _ run => by simp [drive] at run,
      fun _ _ _ _ run => by simp [complete] at run, fun _ _ run => by simp [infer] at run⟩
  | succ fuel ih =>
    exact ⟨clean_advance ih complying, clean_drive ih complying, clean_complete ih, clean_infer ih⟩

/-- Inference with a strategy of this library, with any layers around it, reports no violation of
the protocol, unless a continuation or a distribution returns one. The run of the program is halted
without a value, and the strategy is then asked for what it has; and while such a strategy is
active, in whatever state, no program that is run gets a value back. -/
theorem infer_lawful (fuel : Nat) {s : Strategies X T K} (own : s.core.IsOwn)
    (a : Action X (Strategies X T) K) (r : Router X (Strategies X T) K) :
    (∀ w q, complete fuel a (r.enter s).2 = some (.ok w, q) →
      w = none ∧ (strategyAt q r.cells.size (Strategy.start s).value).core.Settled) ∧
    (a.Compliant Step.Harmless → ∀ d t q, infer fuel s a r = some (d, t, q) →
      ∀ m, d ≠ .error (.protocolViolation m)) ∧
    (∀ q i busy, q.current = some (i, { handler := .strategy s, busy := busy }) →
      ∀ v q', run fuel a q ≠ some (.ok v, q')) := by
  refine ⟨fun w q inner => settled_of_infer own inner, ?_,
    fun q i busy active v q' => run_ne_ok own active⟩
  rintro ⟨P, complies, complying⟩ d t q inferred
  exact (clean complying fuel).infer own complies inferred

end Run

end Programs

/-- A search with two layers around it. -/
def Nest.layered : Strategies Float (NoOther Float) Nest :=
  ⟨[.trace Layer.defaultTag, .metrics {}], .enumeration (.fresh false)⟩

/-- A router with that search installed. -/
def Nest.installed : Router Float (Strategies Float (NoOther Float)) Nest where
  cells := #[{ handler := .strategy Nest.layered }]
  active := some 0
  depth := 1
  source := .ofWords #[]

theorem Nest.compliant_outer :
    (.start .outer : Action Float (Strategies Float (NoOther Float)) Nest).Compliant
      Step.Harmless := by
  have harmless (v : Value) : (.draw .middle (.delta v) [] : Step Float Nest).Harmless := by
    rintro m (⟨source, failed⟩ | failed | ⟨u, failed⟩) <;> cases failed
  refine ⟨fun _ => True, ⟨harmless _, trivial⟩, fun k v _ => ?_⟩
  cases k with
  | outer => exact ⟨harmless _, trivial⟩
  | middle => exact fun _ _ => trivial
  | inner => exact ⟨fun _ raises => raises, trivial⟩
  | report failed => exact ⟨fun _ raises => raises, trivial⟩

namespace Run

/-- The program goes on after another has failed, and is halted; where the search is installed by
hand, the same program gets no value back. -/
theorem infer_lawful_nest :
    (∃ q, complete 20 (.start .outer) (Nest.router.enter Nest.layered).2 = some (.ok none, q) ∧
      (strategyAt q 1 (Strategy.start Nest.layered).value).core.Settled) ∧
    (∃ d t q, infer 20 Nest.layered (.start .outer) Nest.router = some (d, t, q) ∧
      ∀ m, d ≠ .error (.protocolViolation m)) ∧
    ∃ x q, run 20 (.start .outer) Nest.installed = some (x, q) ∧ ∀ v, x ≠ .ok v := by
  have own : Nest.layered.core.IsOwn := trivial
  obtain ⟨halted, lawful, noValue⟩ := infer_lawful 20 own (.start .outer) Nest.router
  refine ⟨?_, ?_, ?_⟩
  · obtain ⟨⟨outcome, q⟩, inner, ok⟩ := Option.map_eq_some_iff.1
      (show (complete 20 (.start .outer) (Nest.router.enter Nest.layered).2).map
        (fun x => x.1.isOk) = some true by decide +kernel)
    cases outcome with
    | error e => cases ok
    | ok w =>
      obtain ⟨rfl, settled⟩ := halted w q inner
      exact ⟨q, inner, settled⟩
  · obtain ⟨⟨d, t, q⟩, inferred⟩ := Option.isSome_iff_exists.1
      (show (infer 20 Nest.layered (.start .outer) Nest.router).isSome by decide +kernel)
    exact ⟨d, t, q, inferred, lawful Nest.compliant_outer d t q inferred⟩
  · obtain ⟨⟨x, q⟩, ran⟩ := Option.isSome_iff_exists.1
      (show (run 20 (.start .outer) Nest.installed).isSome by decide +kernel)
    refine ⟨x, q, ran, ?_⟩
    rintro v rfl
    exact noValue Nest.installed 0 false rfl v q ran

/-- No continuation of the program returns a violation or touches the router, but the distribution
that it draws from returns one, and so does the inference. -/
theorem violation_of_forged :
    (.draw .done (.forged (.protocolViolation "forged")) [] :
      Action Float (Strategies Float (NoOther Float)) Relay).Compliant (fun _ => True) ∧
    (infer 5 (.sampling {} (.ofWords #[])) (.draw .done (.forged (.protocolViolation "forged")) [])
      Relay.router).map Prod.fst = some (.error (.protocolViolation "forged")) := by
  refine ⟨⟨fun k => k = .done, ⟨trivial, rfl⟩, ?_⟩, rfl⟩
  rintro k v rfl
  exact ⟨trivial, trivial⟩

end Run

end Posterior
