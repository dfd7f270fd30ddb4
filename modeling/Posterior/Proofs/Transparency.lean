import Posterior.Proofs.Simulation

/-!
# Layers are transparent

A layer watches what goes through it. Without the layers, the strategy inside would be asked about
the same effects in the same order and would answer them in the same way; so nothing that a program
does, and nothing that comes out of an inference, depends on which layers there are.

Routers are compared without the layers of their handlers. Whether these are there makes no
difference to what a handler answers, or to what a program sees of the router.

## Main definitions

* `Router.bare` — a router whose strategies have lost their layers
* `Run.calls` — what the strategy inside the layers is asked during an inference

## Main results

* `Layered.handle_value` — the layers of a strategy have no part in its answer
* `Run.simulation_bare` — routers that differ in layers cannot be told apart
* `Run.infer_transparent` — inference with layers and without
-/

namespace Posterior

variable {X : Type} {S : Type → Type} {K : Type} [Strategy X S]

/-! ### Layers around one call -/

/-- A layer after an effect has passed through it, and the answer back. -/
def Layer.passed (step : Step X K) (answer : Result (Resumption K)) (l : Layer X) : Layer X :=
  ((l.before step).value.after step answer).value

theorem Layer.finished_value (result : Result (Distribution X)) (l : Layer X) :
    (l.finished result).value = l := by
  cases result <;> cases l <;> rfl

namespace Layered

/-- The strategy inside gives the answer, and each layer only looks at the effect and the answer. -/
theorem handle_value (ambient : Ambient X K) (step : Step X K) (core : S K) (ls : List (Layer X)) :
    (handle ambient step core ls).value =
      ((Handler.handle ambient step core).value.1,
        ls.map (Layer.passed step (Handler.handle ambient step core).value.1),
        (Handler.handle ambient step core).value.2) := by
  induction ls with
  | nil => rfl
  | cons l ls ih =>
    rw [handle]
    simp only [Logged.bind_value, ih]
    rfl

theorem start_value (core : S K) (ls : List (Layer X)) :
    (start core ls).value =
      (ls.map fun l => (l.starting (Handler.name core)).value, (Strategy.start core).value) := by
  induction ls with
  | nil => rfl
  | cons l ls ih =>
    rw [start]
    simp only [Logged.bind_value, ih]
    rfl

theorem finish_value (core : S K) (ls : List (Layer X)) :
    (finish core ls).value =
      ((Strategy.finish core).value.1, ls, (Strategy.finish core).value.2) := by
  induction ls with
  | nil => rfl
  | cons l ls ih =>
    rw [finish]
    simp only [Logged.bind_value, ih, Layer.finished_value]
    rfl

variable (s : Layered X S K)

theorem handle_eq (ambient : Ambient X K) (step : Step X K) :
    (Handler.handle ambient step s).value =
      ((Handler.handle ambient step s.core).value.1,
        ⟨s.layers.map (Layer.passed step (Handler.handle ambient step s.core).value.1),
          (Handler.handle ambient step s.core).value.2⟩) := by
  have passed := handle_value ambient step s.core s.layers
  simp only [Handler.handle, Logged.bind_value, passed]
  rfl

theorem start_eq :
    (Strategy.start s).value =
      ⟨s.layers.map fun l => (l.starting (Handler.name s.core)).value,
        (Strategy.start s.core).value⟩ := by
  have started := start_value s.core s.layers
  simp only [Strategy.start, Logged.bind_value, started]
  rfl

theorem finish_eq :
    (Strategy.finish s).value =
      ((Strategy.finish s.core).value.1, ⟨s.layers, (Strategy.finish s.core).value.2⟩) := by
  have finished := finish_value s.core s.layers
  simp only [Strategy.finish, Logged.bind_value, finished]
  rfl

end Layered

/-! ### Routers without layers -/

/-- The strategy on its own. -/
def Layered.bare (s : Layered X S K) : Layered X S K := { core := s.core }

/-- The handler without the layers of its strategy. -/
def Installed.bare : Installed X (Layered X S) K → Installed X (Layered X S) K
  | .strategy s => .strategy s.bare
  | .sampler h => .sampler h

def Cell.bare (c : Cell X (Layered X S) K) : Cell X (Layered X S) K :=
  { c with handler := c.handler.bare }

omit [Strategy X S] in
theorem Cell.bare_bare (c : Cell X (Layered X S) K) : c.bare.bare = c.bare := by
  obtain ⟨h, busy⟩ := c
  cases h <;> rfl

theorem Installed.name_bare (h : Installed X (Layered X S) K) : h.bare.name = h.name := by
  cases h <;> rfl

theorem Cell.name_bare (c : Cell X (Layered X S) K) : c.bare.name = c.name := by
  unfold Cell.name
  rw [Cell.bare, Installed.name_bare]

/-- Layers change neither the answer of a handler nor what becomes of the strategy inside. -/
theorem Installed.handle_bare (h : Installed X (Layered X S) K) (ambient : Ambient X K)
    (step : Step X K) :
    (h.bare.handle ambient step).value.1 = (h.handle ambient step).value.1 ∧
      (h.bare.handle ambient step).value.2.bare = (h.handle ambient step).value.2.bare := by
  cases h with
  | sampler h => exact ⟨rfl, rfl⟩
  | strategy s =>
    have bare := Layered.handle_eq s.bare ambient step
    have layered := Layered.handle_eq s ambient step
    simp only [Installed.bare, Installed.handle, Logged.bind_value, bare, layered]
    exact ⟨rfl, rfl⟩

namespace Router

/-- The router without the layers of its strategies, and without its events. -/
def bare (r : Router X (Layered X S) K) : Router X (Layered X S) K :=
  { r with cells := r.cells.map Cell.bare, events := #[] }

variable {r r₁ r₂ : Router X (Layered X S) K}

omit [Strategy X S] in
theorem map_bare_bare (cells : Array (Cell X (Layered X S) K)) :
    (cells.map Cell.bare).map Cell.bare = cells.map Cell.bare := by
  rw [Array.map_map, show Cell.bare ∘ Cell.bare = Cell.bare (X := X) (S := S) (K := K) from
    funext Cell.bare_bare]

omit [Strategy X S] in
theorem current_bare (r : Router X (Layered X S) K) :
    r.bare.current = r.current.map fun ic => (ic.1, ic.2.bare) := by
  unfold current
  cases active : r.bare.active with
  | none => simp [show r.active = none from active]
  | some i =>
    rw [show r.active = some i from active]
    simp only [bare, Array.getElem?_map]
    cases r.cells[i]? <;> rfl

/-- What a program sees of the router does not depend on layers. -/
theorem view_bare (r : Router X (Layered X S) K) : r.bare.view = r.view := by
  unfold view
  rw [current_bare]
  cases r.current with
  | none => rfl
  | some ic => simp only [Option.map_some, Cell.name_bare]; rfl

theorem view_eq_of_bare (same : r₁.bare = r₂.bare) : r₁.view = r₂.view := by
  rw [← view_bare r₁, ← view_bare r₂, same]

/-- The strategy, inside its layers, that an effect goes to. -/
def core? (r : Router X (Layered X S) K) : Option (S K) :=
  match r.current with
  | some (_, ⟨.strategy s, false⟩) => some s.core
  | _ => none

omit [Strategy X S] in
theorem core?_bare (r : Router X (Layered X S) K) : r.bare.core? = r.core? := by
  unfold core?
  rw [current_bare]
  -- A cell is idle or busy, and holds a strategy or a sampler; `bare` keeps all of that.
  rcases r.current with _ | ⟨i, _ | _, _ | _⟩ <;> rfl

/-- Layers take no part in forwarding an effect. -/
theorem dispatch_bare (r : Router X (Layered X S) K) (step : Step X K) :
    (r.bare.dispatch step).1 = (r.dispatch step).1 ∧
      (r.bare.dispatch step).2.bare = (r.dispatch step).2.bare := by
  have current := current_bare r
  rcases active : r.current with _ | ⟨i, c⟩
  · rw [active] at current
    unfold dispatch
    rw [active, current]
    refine ⟨rfl, ?_⟩
    simp only [Option.map_none, bare, report, map_bare_bare]
  · rw [active] at current
    cases busy : c.busy with
    | true =>
      -- A handler at work refuses before any layer gets to see the effect.
      rw [dispatch_of_busy active busy, dispatch_of_busy current busy]
      exact ⟨rfl, by simp only [bare, map_bare_bare]⟩
    | false =>
      obtain ⟨es, after⟩ := dispatch_of_free active busy step
      obtain ⟨es', after'⟩ := dispatch_of_free current busy step
      obtain ⟨answer, left⟩ := c.handler.handle_bare (fun _ => pure refusal) step
      rw [after, after']
      refine ⟨answer, ?_⟩
      have cell : Cell.bare { handler := (c.bare.handler.handle (fun _ => pure refusal) step).value.2 } =
          Cell.bare { handler := (c.handler.handle (fun _ => pure refusal) step).value.2 } :=
        congrArg (Cell.mk · false) left
      simp only [bare, Array.map_setIfInBounds, map_bare_bare, cell]

/-- Routers that differ in layers answer an effect alike. -/
theorem dispatch_eq_of_bare (same : r₁.bare = r₂.bare) (step : Step X K) :
    (r₁.dispatch step).1 = (r₂.dispatch step).1 ∧
      (r₁.dispatch step).2.bare = (r₂.dispatch step).2.bare := by
  obtain ⟨answer₁, after₁⟩ := dispatch_bare r₁ step
  obtain ⟨answer₂, after₂⟩ := dispatch_bare r₂ step
  rw [← answer₁, ← answer₂, ← after₁, ← after₂, same]
  exact ⟨rfl, rfl⟩

/-- Entering an inference with other layers makes no difference either. -/
theorem bare_enter (same : r₁.bare = r₂.bare) {s₁ s₂ : Layered X S K} (core : s₁.core = s₂.core) :
    (r₁.enter s₁).2.bare = (r₂.enter s₂).2.bare := by
  have cells : r₁.cells.map Cell.bare = r₂.cells.map Cell.bare := congrArg Router.cells same
  have size : r₁.cells.size = r₂.cells.size := by simpa using congrArg Array.size cells
  have depth : r₁.depth = r₂.depth := show r₁.bare.depth = r₂.bare.depth by rw [same]
  have source : r₁.source = r₂.source := show r₁.bare.source = r₂.bare.source by rw [same]
  have started : (Strategy.start s₁).value.bare = (Strategy.start s₂).value.bare := by
    rw [Layered.start_eq, Layered.start_eq, core]
    rfl
  have cell : Cell.bare { handler := .strategy (Strategy.start s₁).value } =
      Cell.bare { handler := .strategy (Strategy.start s₂).value } :=
    congrArg (fun s => Cell.mk (.strategy s) false) started
  simp only [bare, enter_cells, enter_active, enter_depth, enter_source, Array.map_push, cells, size,
    depth, source, cell]

end Router

namespace Run

/-! ### Runs with layers and without -/

omit [Strategy X S] in
theorem core_strategyAt_bare (r : Router X (Layered X S) K) (i : Nat) (s : Layered X S K) :
    (strategyAt r.bare i s).core = (strategyAt r i s).core := by
  unfold strategyAt
  simp only [Router.bare, Array.getElem?_map]
  rcases r.cells[i]? with _ | ⟨_ | _, _⟩ <;> rfl

/-- Routers that differ in the layers of their strategies cannot be told apart. -/
theorem simulation_bare :
    Simulation (fun s₁ s₂ : Layered X S K => s₁.core = s₂.core) fun r₁ r₂ => r₁.bare = r₂.bare where
  refl _ := rfl
  name {s₁ s₂} core := congrArg (Handler.name (H := S)) core
  start core := by rw [Layered.start_eq, Layered.start_eq, core]
  finish core := by rw [Layered.finish_eq, Layered.finish_eq, core]; exact ⟨rfl, rfl⟩
  events es₁ es₂ same := same
  shown same := by rw [Router.view_eq_of_bare same]
  dispatch step same := Router.dispatch_eq_of_bare same step
  enter s same := Router.bare_enter same rfl
  asked {r₁ r₂ s₁ s₂ i₁ i₂} same core active₁ active₂ := by
    have active : r₁.active = r₂.active := show r₁.bare.active = r₂.bare.active by rw [same]
    obtain rfl : i₁ = i₂ := Option.some.inj (by rw [← active₁, ← active₂, active])
    -- The cell holds a strategy on both sides or on neither; then the given ones count.
    rw [← core_strategyAt_bare r₁, ← core_strategyAt_bare r₂, same]
    unfold strategyAt
    split
    · rfl
    · exact core

/-! ### What the strategy inside is asked -/

/-- What a strategy is asked, with the state in which this finds it. -/
inductive Call (X : Type) (S : Type → Type) (K : Type) where
  | start (core : S K)
  | handle (step : Step X K) (core : S K)
  | finish (core : S K)

/-- What the strategy of the outermost inference is asked at a moment. Its effects are those with
one inference around them. -/
def Moment.call? (m : Moment X (Layered X S) K) : Option (Call X S K) :=
  match m.use with
  | .dispatch step => if m.level = 1 then m.router.core?.map (.handle step) else none
  | .finish s => if m.level = 0 then some (.finish s.core) else none
  | .view => none

/-- What the strategy is asked during an inference with the given moments. -/
def calls (s : Layered X S K) (ms : List (Moment X (Layered X S) K)) : List (Call X S K) :=
  .start s.core :: ms.filterMap Moment.call?

omit [Strategy X S] in
/-- Moments of runs that differ in layers ask the same of the strategy. -/
theorem call?_eq_of_rel {m₁ m₂ : Moment X (Layered X S) K}
    (related : m₁.Rel (fun s₁ s₂ => s₁.core = s₂.core) (fun r₁ r₂ => r₁.bare = r₂.bare) m₂) :
    m₁.call? = m₂.call? := by
  obtain ⟨level, router, use⟩ := related
  have core : m₁.router.core? = m₂.router.core? := by
    rw [← Router.core?_bare m₁.router, ← Router.core?_bare m₂.router, router]
  unfold Moment.call?
  rw [level, core]
  rcases m₁ with ⟨_, _, use₁⟩
  rcases m₂ with ⟨_, _, use₂⟩
  cases use with
  | dispatch step => rfl
  | view => rfl
  | finish same => simp only [same]

variable [Resumable X (Layered X S) K]

/-- Layers are transparent. Whatever layers there are around a strategy, in whatever state, inference
gives the same result with them and without, or the same failure, and ends when it would have ended;
the strategy is started, asked about the same effects in the same order, in the same states, and
asked for the result, and it is left in the same state; and whenever the program uses the router, it
finds the same depth and the same name. -/
theorem infer_transparent (fuel : Nat) (layers inner : List (Layer X)) (core : S K)
    (a : Action X (Layered X S) K) (r : Router X (Layered X S) K) :
    (infer fuel ⟨layers ++ inner, core⟩ a r).map (fun x => (x.1, x.2.1.core)) =
      (infer fuel ⟨inner, core⟩ a r).map (fun x => (x.1, x.2.1.core)) ∧
    calls ⟨layers ++ inner, core⟩ (inferMoments fuel 0 ⟨layers ++ inner, core⟩ a r) =
      calls ⟨inner, core⟩ (inferMoments fuel 0 ⟨inner, core⟩ a r) ∧
    (inferMoments fuel 0 ⟨layers ++ inner, core⟩ a r).map (fun m => (m.level, m.router.view)) =
      (inferMoments fuel 0 ⟨inner, core⟩ a r).map (fun m => (m.level, m.router.view)) := by
  have entered : (r.enter ⟨layers ++ inner, core⟩).2.bare = (r.enter ⟨inner, core⟩).2.bare :=
    Router.bare_enter rfl rfl
  obtain ⟨result, moments⟩ := (alike_of_simulation simulation_bare fuel).infer (n := 0) (a := a)
    entered rfl (covert_of_view Router.view_eq_of_bare _)
  have moments := moments rfl
  refine ⟨?_, ?_, ?_⟩
  · rcases result with ⟨run, run'⟩ | ⟨d, s, q, s', q', run, run', left⟩
    · rw [run, run']
    · rw [run, run', Option.map_some, Option.map_some, left]
  · have asked := map_eq_of_forall₂ (fun _ _ => call?_eq_of_rel) moments
    -- Moments at which nothing is asked stand at the same places, so they can be left out.
    have filtered := congrArg (List.filterMap id) asked
    rw [List.filterMap_map, List.filterMap_map] at filtered
    exact congrArg (Call.start core :: ·) filtered
  · refine map_eq_of_forall₂ (fun m₁ m₂ related => ?_) moments
    rw [related.level, Router.view_eq_of_bare related.router]

end Run

end Posterior
