import Mathlib.Tactic.Common
import Posterior.Inference

/-!
# What a run leaves of the router

Between two effects a program may infer other programs, to any depth, and each inference installs
a strategy and brings back what was active before. A run therefore changes only the handler that
effects go to, and an inference, whose effects all go to its own strategy, changes nothing at all:
the handlers, the active one, the depth and the random source are those from before.

## Main definitions

* `Router.enter`, `Router.leave` — the router at the two ends of an inference
* `Router.Frame` — what a run may have done to a router

## Main results

* `Run.related_of_preserved` — every run keeps to a relation that the transitions of the router keep to
* `Run.frame_complete` — a run changes no handler but the active one
* `Run.infer_router` — an inference changes nothing but the events
* `Inference.infer_restores` — the active handler and the depth after an inference, and where its
  distribution is made use of, are those from before
-/

namespace Posterior

variable {X : Type} {S : Type → Type} {K : Type}

namespace Router

/-! ### The transitions of the router -/

/-- Releasing a scope brings back what it remembers and touches no handler. -/
theorem release_eq (r : Router X S K) (scope : Scope) :
    ∃ es, r.release scope =
      { r with active := scope.previous, depth := scope.depth - 1, events := es } := by
  unfold release
  split <;> exact ⟨_, rfl⟩

/-- The handler that effects go to is the one in the active cell. -/
theorem current_eq_some_iff {r : Router X S K} {i : Nat} {c : Cell X S K} :
    r.current = some (i, c) ↔ r.active = some i ∧ r.cells[i]? = some c := by
  unfold current
  split
  · next inactive => simp [inactive]
  · next j active =>
    split
    · next absent =>
      constructor
      · simp
      · rintro ⟨same, held⟩
        obtain rfl := Option.some.inj (active.symm.trans same)
        simp [absent] at held
    · next d present =>
      constructor
      · rintro ⟨rfl, rfl⟩
        exact ⟨active, present⟩
      · rintro ⟨same, held⟩
        obtain rfl := Option.some.inj (active.symm.trans same)
        rw [Option.some.inj (present.symm.trans held)]

/-- A handler at work gets no answer from itself. -/
theorem ambient_busy [Handler X S] (i : Nat) (c : Cell X S K) (source : Source) :
    ambient (some (i, { c with busy := true })) source = fun _ => pure refusal := rfl

section Dispatch

variable [Handler X S] {r : Router X S K} {i : Nat} {c : Cell X S K}

/-- Without a handler, an effect uses up the random source. -/
theorem dispatch_of_none (inactive : r.current = none) (step : Step X K) :
    ∃ source es, (r.dispatch step).2 = { r with source := source, events := es } := by
  unfold dispatch
  rw [inactive]
  exact ⟨_, _, rfl⟩

/-- A busy handler refuses an effect. -/
theorem dispatch_of_busy (active : r.current = some (i, c)) (busy : c.busy = true)
    (step : Step X K) : r.dispatch step = (refusal, r) := by
  unfold dispatch
  rw [active]
  exact if_pos busy

/-- A free handler answers an effect, and its cell is the only one that changes. -/
theorem dispatch_of_free (active : r.current = some (i, c)) (free : c.busy = false)
    (step : Step X K) :
    ∃ es, r.dispatch step =
      ((c.handler.handle (fun _ => pure refusal) step).value.1,
        { r with
          cells := r.cells.setIfInBounds i
            { handler := (c.handler.handle (fun _ => pure refusal) step).value.2 }
          events := es }) := by
  unfold dispatch
  rw [active]
  simp only [free, Bool.false_eq_true, if_false, ambient_busy]
  exact ⟨_, rfl⟩

/-- A free handler that has answered an effect is still the one that effects go to. -/
theorem current_dispatch (active : r.current = some (i, c)) (free : c.busy = false)
    (step : Step X K) :
    (r.dispatch step).2.current =
      some (i, { handler := (c.handler.handle (fun _ => pure refusal) step).value.2 }) := by
  obtain ⟨es, after⟩ := dispatch_of_free active free step
  obtain ⟨activeAt, held⟩ := current_eq_some_iff.1 active
  obtain ⟨inside, -⟩ := Array.getElem?_eq_some_iff.1 held
  rw [after, current_eq_some_iff]
  exact ⟨activeAt, Array.getElem?_setIfInBounds_self_of_lt inside⟩

end Dispatch

variable [Strategy X S]

/-- A strategy that has been started, on top of the handlers in use and installed, with the scope
that brings back what was active before. -/
def enter (s : S K) (r : Router X S K) : Scope × Router X S K :=
  ((r.reportAll (Strategy.start s).events).add (.strategy (Strategy.start s).value)).2.install
    r.cells.size

/-- The router after the scope of the handler on top has been released and the handler taken out of
use. -/
def leave (scope : Scope) (r : Router X S K) : Router X S K :=
  { r.release scope with cells := (r.release scope).cells.pop }

section Enter

variable (s : S K) (r : Router X S K)

@[simp] theorem enter_active : (r.enter s).2.active = some r.cells.size := rfl

@[simp] theorem enter_depth : (r.enter s).2.depth = r.depth + 1 := rfl

@[simp] theorem enter_cells :
    (r.enter s).2.cells = r.cells.push { handler := .strategy (Strategy.start s).value } := rfl

@[simp] theorem enter_source : (r.enter s).2.source = r.source := rfl

/-- During an inference effects go to its own strategy. -/
@[simp] theorem enter_current :
    (r.enter s).2.current =
      some (r.cells.size, { handler := .strategy (Strategy.start s).value }) := by
  simp [current_eq_some_iff]

end Enter

/-! ### What a run may do to a router -/

/-- Only the active handler has changed its state, and only while there was none have choices been
sampled from the router's own source. Events may have been added. -/
structure Frame (r r' : Router X S K) : Prop where
  active : r'.active = r.active
  depth : r'.depth = r.depth
  size : r'.cells.size = r.cells.size
  cells : ∀ i, r.active ≠ some i → r'.cells[i]? = r.cells[i]?
  busy : ∀ i : Nat, (r'.cells[i]?).map Cell.busy = (r.cells[i]?).map Cell.busy
  source : r.current.isSome → r'.source = r.source

namespace Frame

variable {r r' r'' : Router X S K}

omit [Strategy X S]

theorem refl (r : Router X S K) : r.Frame r :=
  ⟨rfl, rfl, rfl, fun _ _ => rfl, fun _ => rfl, fun _ => rfl⟩

/-- A handler is active after a run if one was before. -/
theorem isSome_current (h : r.Frame r') : r'.current.isSome = r.current.isSome := by
  unfold current
  rw [h.active]
  cases r.active with
  | none => rfl
  | some i =>
    have kept := h.busy i
    cases after : r'.cells[i]? <;> cases before : r.cells[i]? <;> simp_all

theorem trans (h : r.Frame r') (h' : r'.Frame r'') : r.Frame r'' where
  active := h'.active.trans h.active
  depth := h'.depth.trans h.depth
  size := h'.size.trans h.size
  cells i other := (h'.cells i (h.active ▸ other)).trans (h.cells i other)
  busy i := (h'.busy i).trans (h.busy i)
  source active := (h'.source (h.isSome_current.trans active)).trans (h.source active)

/-- Events are no part of what a run keeps. -/
theorem events (r : Router X S K) (es : Array (Event X)) : r.Frame { r with events := es } :=
  ⟨rfl, rfl, rfl, fun _ _ => rfl, fun _ => rfl, fun _ => rfl⟩

/-- Forwarding an effect is up to the active handler alone. -/
theorem dispatch [Handler X S] (r : Router X S K) (step : Step X K) :
    r.Frame (r.dispatch step).2 := by
  -- Without a handler the source is used up; a busy one refuses; a free one writes its own cell.
  cases active : r.current with
  | none =>
    obtain ⟨source, es, after⟩ := dispatch_of_none active step
    rw [after]
    exact ⟨rfl, rfl, rfl, fun _ _ => rfl, fun _ => rfl, fun isSome => by simp [active] at isSome⟩
  | some ic =>
    obtain ⟨i, c⟩ := ic
    obtain ⟨activeAt, held⟩ := current_eq_some_iff.1 active
    cases busy : c.busy with
    | true =>
      rw [dispatch_of_busy active busy]
      exact refl r
    | false =>
      obtain ⟨es, after⟩ := dispatch_of_free active busy step
      rw [after]
      refine ⟨rfl, rfl, Array.size_setIfInBounds, fun j other => ?_, fun j => ?_, fun _ => rfl⟩
      · have apart : i ≠ j := by
          rintro rfl
          exact other activeAt
        exact Array.getElem?_setIfInBounds_ne apart
      · by_cases same : i = j
        · subst same
          obtain ⟨inside, holds⟩ := Array.getElem?_eq_some_iff.1 held
          simp [inside, holds, busy]
        · rw [Array.getElem?_setIfInBounds_ne same]

end Frame

/-- Leaving an inference gives back the router from before it, but for events: its own strategy was
the only handler that it could change. -/
theorem leave_enter {r q : Router X S K} {s : S K} (h : (r.enter s).2.Frame q) :
    ∃ es, q.leave (r.enter s).1 = { r with events := es } := by
  obtain ⟨es, released⟩ := q.release_eq (r.enter s).1
  -- The cell of the strategy is on top and was the active one, so the frame covers all below it.
  have cells : q.cells.pop = r.cells := by
    apply Array.ext_getElem?
    intro i
    have size : q.cells.size = r.cells.size + 1 := by simpa using h.size
    by_cases below : i < r.cells.size
    · have other : (r.enter s).2.active ≠ some i := by
        simp only [enter_active, ne_eq, Option.some.injEq]
        omega
      rw [Array.getElem?_pop, if_pos (by omega), h.cells i other, enter_cells,
        Array.getElem?_push_lt below, Array.getElem?_eq_getElem below]
    · rw [Array.getElem?_pop, if_neg (by omega), Array.getElem?_eq_none (by omega)]
  have source : q.source = r.source := by simpa using h.source
  refine ⟨es, ?_⟩
  rw [leave, released]
  simp only [cells, source]
  rfl

end Router

namespace Run

variable [Strategy X S] [Resumable X S K]

omit [Strategy X S] [Resumable X S K] in
/-- Releasing a scope leaves the strategies as they are. -/
theorem strategyAt_release (r : Router X S K) (scope : Scope) (i : Nat) (s : S K) :
    strategyAt (r.release scope) i s = strategyAt r i s := by
  obtain ⟨es, released⟩ := r.release_eq scope
  unfold strategyAt
  rw [released]

/-- An inference runs the program between entering and leaving, and then asks the strategy. -/
theorem infer_succ (fuel : Nat) (s : S K) (a : Action X S K) (r : Router X S K) :
    infer (fuel + 1) s a r =
      match complete fuel a (r.enter s).2 with
      | none => none
      | some (outcome, q) =>
        some (conclude (Handler.name (Strategy.start s).value)
          (strategyAt q r.cells.size (Strategy.start s).value) outcome
          (q.leave (r.enter s).1)) := by
  have asked : infer (fuel + 1) s a r =
      match complete fuel a (r.enter s).2 with
      | none => none
      | some (outcome, q) =>
        some (conclude (Handler.name (Strategy.start s).value)
          (strategyAt (q.release (r.enter s).1) r.cells.size (Strategy.start s).value) outcome
          (q.leave (r.enter s).1)) := rfl
  simp only [asked, strategyAt_release]

omit [Resumable X S K] in
/-- Asking the strategy for the result only reports events. -/
theorem conclude_router (name : String) (s : S K) (outcome : Result (Option Value))
    (r : Router X S K) : ∃ es, (conclude name s outcome r).2.2 = { r with events := es } := by
  unfold conclude
  split <;> exact ⟨_, rfl⟩

/-- An inference leaves the router as its program did, but for what entering had changed. -/
theorem exists_leave_of_infer {fuel : Nat} {s : S K} {a : Action X S K} {r : Router X S K} {x}
    (run : infer (fuel + 1) s a r = some x) :
    ∃ outcome q es, complete fuel a (r.enter s).2 = some (outcome, q) ∧
      x.2.2 = { q.leave (r.enter s).1 with events := es } := by
  rw [infer_succ] at run
  split at run
  · cases run
  · next outcome q inner =>
    cases run
    obtain ⟨es, after⟩ := conclude_router (Handler.name (Strategy.start s).value)
      (strategyAt q r.cells.size (Strategy.start s).value) outcome (q.leave (r.enter s).1)
    exact ⟨outcome, q, es, inner, after⟩

/-! ### Every run -/

/-- What a relation between routers has to satisfy so that all runs keep to it. -/
structure Preserved (R : Router X S K → Router X S K → Prop) : Prop where
  refl : ∀ r, R r r
  trans : ∀ {r r' r''}, R r r' → R r' r'' → R r r''
  report : ∀ r e, R r (r.report e)
  dispatch : ∀ r step, R r (r.dispatch step).2
  infer : ∀ {s r q es}, R (r.enter s).2 q → R r { q.leave (r.enter s).1 with events := es }

/-- The routers before and after a run that ends with the given fuel are related. -/
structure Related (R : Router X S K → Router X S K → Prop) (fuel : Nat) : Prop where
  advance : ∀ {a r x}, advance fuel a r = some x → R r x.2
  drive : ∀ {n step r x}, drive fuel n step r = some x → R r x.2
  complete : ∀ {a r x}, complete fuel a r = some x → R r x.2
  infer : ∀ {s a r x}, infer fuel s a r = some x → R r x.2.2

/-- A relation that the transitions of the router keep to is kept to by every run. -/
theorem related_of_preserved {R : Router X S K → Router X S K → Prop} (h : Preserved R)
    (fuel : Nat) : Related R fuel := by
  -- The four functions call each other with less fuel, so one induction serves them all.
  induction fuel with
  | zero => exact ⟨by simp [advance], by simp [drive], by simp [complete], by simp [infer]⟩
  | succ fuel ih =>
    refine ⟨?_, ?_, ?_, ?_⟩
    · intro a r x run
      cases a with
      | perform step => cases run; exact h.refl r
      | fail e => cases run; exact h.refl r
      | display v k => exact h.trans (h.report r _) (ih.advance run)
      | probe k => exact ih.advance run
      | dispatch step k => exact h.trans (h.dispatch r step) (ih.advance run)
      | infer s p k =>
        rw [advance] at run
        split at run
        · cases run
        · next inner => exact h.trans (ih.infer inner) (ih.advance run)
      | run p k =>
        rw [advance] at run
        split at run
        · cases run
        · next inner => exact h.trans (ih.complete inner) (ih.advance run)
      | drive step k =>
        rw [advance] at run
        split at run
        · cases run
        · next inner => exact h.trans (ih.drive inner) (ih.advance run)
    · intro n step r x run
      rw [drive] at run
      have dispatched := h.dispatch r step
      split at run
      · next answer => cases run; rwa [answer] at dispatched
      · next answer =>
        cases run
        rw [answer] at dispatched
        exact h.trans dispatched (h.report _ _)
      · next answer =>
        rw [answer] at dispatched
        split at run
        · cases run
        · next rest =>
          cases run
          exact h.trans dispatched (h.trans (h.report _ _) (ih.advance rest))
        · next rest =>
          have resumed := h.trans (h.report _ _) (ih.advance rest)
          exact h.trans dispatched (h.trans resumed (ih.drive run))
    · intro a r x run
      rw [complete] at run
      split at run
      · cases run
      · next first => cases run; exact ih.advance first
      · next first => exact h.trans (ih.advance first) (ih.drive run)
    · intro s a r x run
      obtain ⟨outcome, q, es, inner, after⟩ := exists_leave_of_infer run
      rw [after]
      -- What the program did under the strategy does not matter beyond the relation.
      exact h.infer (ih.complete inner)

/-! ### The handlers that are not active -/

omit [Resumable X S K] in
theorem preserved_frame : Preserved (Router.Frame (X := X) (S := S) (K := K)) where
  refl := Router.Frame.refl
  trans h h' := h.trans h'
  report r _ := Router.Frame.events r _
  dispatch := Router.Frame.dispatch
  infer {s r q es} h := by
    obtain ⟨es', left⟩ := Router.leave_enter h
    rw [left]
    exact Router.Frame.events r es

/-- A program that runs under the active handler changes no other. -/
theorem frame_complete {fuel : Nat} {a : Action X S K} {r : Router X S K} {x}
    (run : complete fuel a r = some x) : r.Frame x.2 :=
  (related_of_preserved preserved_frame fuel).complete run

/-- An inference leaves the router as it was, however it ends. Only events have been added. -/
theorem infer_router {fuel : Nat} {s : S K} {a : Action X S K} {r : Router X S K} {x}
    (run : infer fuel s a r = some x) : ∃ es, x.2.2 = { r with events := es } := by
  cases fuel with
  | zero => simp [infer] at run
  | succ fuel =>
    obtain ⟨outcome, q, es, inner, after⟩ := exists_leave_of_infer run
    obtain ⟨es', left⟩ := Router.leave_enter (frame_complete inner)
    exact ⟨es, by rw [after, left]⟩

/-- What comes after an inference starts at the router that the inference has left. -/
theorem inferThen_eq_some_iff {fuel : Nat} {s : S K} {a : Action X S K}
    {next : Distribution X → Action X S K} {r : Router X S K} {x} :
    inferThen fuel s a next r = some x ↔ ∃ d s' q, infer fuel s a r = some (d, s', q) ∧
      match d with
      | .error e => x = (.error e, q)
      | .ok d => advance fuel (next d) q = some x := by
  unfold inferThen
  split
  · next run => simp [run]
  · next e s' q run => simp [run, eq_comm]
  · next d s' q run => simp [run]

end Run

/-- The same handler is active, in the same state, at the same depth. -/
structure Router.Restored (r r' : Router X S K) : Prop where
  active : r'.active = r.active
  current : r'.current = r.current
  depth : r'.depth = r.depth

/-- An inference brings back the active handler and the depth from before it. -/
theorem Run.restored_of_infer [Strategy X S] [Resumable X S K] {fuel : Nat} {s : S K}
    {a : Action X S K} {r : Router X S K} {x} (run : infer fuel s a r = some x) :
    r.Restored x.2.2 := by
  obtain ⟨es, after⟩ := infer_router run
  rw [after]
  exact ⟨rfl, rfl, rfl⟩

namespace Inference

variable {T : Type → Type} [Scalar X] [Strategy X T] [Resumable X (Strategies X T) K]

/-- After an inference, however it ends, the active handler and the depth are those from before it;
and what makes use of an inferred distribution, in a program or behind an entry point, starts with
that handler active at that depth. This holds for every strategy and every program, which may infer
further programs at any point. -/
theorem infer_restores (fuel : Nat) (program : Action X (Strategies X T) K)
    (next : Distribution X → Action X (Strategies X T) K) (r : Router X (Strategies X T) K) :
    (∀ s d s' r', Run.infer fuel s program r = some (d, s', r') → r.Restored r') ∧
    (∀ s p (k : Result (Distribution X) → K) x, Run.advance (fuel + 1) (.infer s p k) r = some x →
      ∃ d s' q, Run.infer fuel s (.start p) r = some (d, s', q) ∧ r.Restored q ∧
        Run.advance fuel (.start (k d)) q = some x) ∧
    (∀ x, enumerateThen fuel program next r = some x →
      ∃ d q, enumerate fuel {} program r = some (d, q) ∧ r.Restored q ∧
        match d with
        | .error e => x = (.error e, q)
        | .ok d => Run.advance fuel (next d) q = some x) ∧
    (∀ unseeded x, sampleThen fuel unseeded program next r = some x →
      ∃ d q, sample fuel {} unseeded program r = some (d, q) ∧ r.Restored q ∧
        match d with
        | .error e => x = (.error e, q)
        | .ok d => Run.advance fuel (next d) q = some x) := by
  refine ⟨fun s d s' r' run => Run.restored_of_infer run, fun s p k x run => ?_, fun x run => ?_,
    fun unseeded x run => ?_⟩
  · rw [Run.advance] at run
    split at run
    · cases run
    · next d s' q inferred => exact ⟨d, s', q, inferred, Run.restored_of_infer inferred, run⟩
  · obtain ⟨d, s', q, inferred, rest⟩ := Run.inferThen_eq_some_iff.1 run
    exact ⟨d, q, by simp [enumerate, inferred], Run.restored_of_infer inferred, rest⟩
  · obtain ⟨d, s', q, inferred, rest⟩ := Run.inferThen_eq_some_iff.1 run
    exact ⟨d, q, by simp [sample, inferred], Run.restored_of_infer inferred, rest⟩

end Inference

/-! ### An inference that fails inside another -/

/-- A choice, after which another program is sampled that fails. -/
inductive Nest where
  /-- The choice. -/
  | outer
  /-- What comes after it. -/
  | middle
  /-- The program that fails: sampling has no use for a constraint. -/
  | inner
  /-- The end, with whether the inner program has failed. -/
  | report (failed : Bool)

namespace Nest

instance : Resumable Float (Strategies Float (NoOther Float)) Nest where
  resume
    | outer, _ => .draw middle (.delta .unit) []
    | middle, _ => .infer (.sampling {} (.ofWords #[])) inner fun d => report (!d.isOk)
    | inner, _ => .weight inner Scalar.zero
    | report failed, _ => .perform (.exit (.bool failed))

/-- A router at depth three, whose active handler is held by somebody else. -/
def router : Router Float (Strategies Float (NoOther Float)) Nest where
  cells := #[{ handler := .sampler ⟨.ofWords #[]⟩, busy := true }]
  active := some 0
  depth := 3
  source := .ofWords #[]

end Nest

namespace Inference

/-- The failure of the inner program and the end of the outer one both leave the router as it was. -/
theorem infer_restores_nest :
    (∃ d s r', Run.infer 20 (.enumeration {}) (.start .outer) Nest.router = some (d, s, r') ∧
      d.isOk = true ∧ Nest.router.Restored r') ∧
    (∃ d s q x, Run.infer 20 (.sampling {} (.ofWords #[])) (.start .inner) Nest.router =
        some (d, s, q) ∧ d.isOk = false ∧ Nest.router.Restored q ∧
      Run.advance 20 (.start (.report (!d.isOk))) q = some x) ∧
    (∃ d q x, enumerate 20 {} (.start .outer) Nest.router = some (d, q) ∧ Nest.router.Restored q ∧
      enumerateThen 20 (.start .outer) (fun _ => .start .inner) Nest.router = some x) ∧
    (∃ d q x, sample 20 {} (.ofWords #[]) (.start .outer) Nest.router = some (d, q) ∧
      Nest.router.Restored q ∧
      sampleThen 20 (.ofWords #[]) (.start .outer) (fun _ => .start .inner) Nest.router =
        some x) := by
  obtain ⟨inferred, used, enumerated, sampled⟩ :=
    infer_restores 20 (.start .outer) (fun _ => .start .inner) Nest.router
  refine ⟨?_, ?_, ?_, ?_⟩
  · obtain ⟨⟨d, s, r'⟩, run, ok⟩ := Option.map_eq_some_iff.1
      (show (Run.infer 20 (.enumeration {}) (.start .outer) Nest.router).map
        (fun x => x.1.isOk) = some true by decide +kernel)
    exact ⟨d, s, r', run, ok, inferred _ _ _ _ run⟩
  · obtain ⟨x, run⟩ := Option.isSome_iff_exists.1
      (show (Run.advance 21 (.start .middle) Nest.router).isSome by decide +kernel)
    obtain ⟨d, s, q, inner, restored, rest⟩ := used _ _ _ _ run
    have failed : (Run.infer 20 (.sampling {} (.ofWords #[])) (.start .inner) Nest.router).map
        (fun x => x.1.isOk) = some false := by
      decide +kernel
    rw [inner] at failed
    exact ⟨d, s, q, x, inner, Option.some.inj failed, restored, rest⟩
  · obtain ⟨x, run⟩ := Option.isSome_iff_exists.1
      (show (enumerateThen 20 (.start .outer) (fun _ => .start .inner) Nest.router).isSome by
        decide +kernel)
    obtain ⟨d, q, whole, restored, -⟩ := enumerated x run
    exact ⟨d, q, x, whole, restored, run⟩
  · obtain ⟨x, run⟩ := Option.isSome_iff_exists.1
      (show (sampleThen 20 (.ofWords #[]) (.start .outer) (fun _ => .start .inner)
        Nest.router).isSome by decide +kernel)
    obtain ⟨d, q, whole, restored, -⟩ := sampled _ x run
    exact ⟨d, q, x, whole, restored, run⟩

end Inference

end Posterior
