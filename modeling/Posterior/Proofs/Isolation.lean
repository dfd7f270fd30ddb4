import Posterior.Proofs.Simulation

/-!
# Inferences inside inferences

A program may infer others, which may infer others in turn. Each effect goes to the strategy of the
innermost inference that it is performed in, and the handlers from before that inference stay as
they were all the time. A program that does not look at the router therefore cannot tell where its
inference takes place: it gives the same result, and leaves its strategy in the same state, inside
any number of other inferences and on its own.

## Main definitions

* `Run.Above` — the routers that an inference runs its program on
* `Run.Aligned` — routers whose active handlers are in the same state
* `Run.Unobserving` — moments at which no program looks at the router

## Main results

* `Run.above_of_mem_inferMoments` — the routers at the moments of an inference
* `Run.infer_eq_of_unobserving` — the result does not depend on the router
* `Run.infer_isolated` — nested inferences do not interfere
-/

namespace Posterior.Run

variable {X : Type} {S : Type → Type} {K : Type} [Strategy X S]

/-! ### Who handles an effect -/

/-- That many inferences run on top of the handlers of `r`, and effects go to the strategy of the
innermost. The handlers of `r` are as they were. -/
structure Above (r : Router X S K) (n : Nat) (q : Router X S K) : Prop where
  pos : 0 < n
  current : ∃ s, q.current = some (r.cells.size + (n - 1), { handler := .strategy s })
  size : q.cells.size = r.cells.size + n
  depth : q.depth = r.depth + n
  below : ∀ i < r.cells.size, q.cells[i]? = r.cells[i]?

theorem above_enter (r : Router X S K) (s : S K) : Above r 1 (r.enter s).2 where
  pos := Nat.one_pos
  current := ⟨_, Router.enter_current s r⟩
  size := by simp
  depth := Router.enter_depth s r
  below i inside := by rw [Router.enter_cells, Array.getElem?_push_lt inside,
    Array.getElem?_eq_getElem inside]

/-- Neither the effects of a program nor the inferences that it makes disturb what is below. -/
theorem invariant_above (r : Router X S K) : Invariant (Above r) where
  events es h := ⟨h.pos, h.current, h.size, h.depth, h.below⟩
  dispatch {n q} step h := by
    obtain ⟨s, active⟩ := h.current
    have frame := Router.Frame.dispatch q step
    refine ⟨h.pos, ⟨_, Router.current_dispatch active rfl step⟩, frame.size.trans h.size,
      frame.depth.trans h.depth, fun i low => ?_⟩
    -- Only the cell on top is written, and it is above all cells of `r`.
    have other : q.active ≠ some i := by
      rw [(Router.current_eq_some_iff.1 active).1, ne_eq, Option.some.injEq]
      omega
    rw [frame.cells i other, h.below i low]
  enter {n q} s h := by
    have size := h.size
    refine ⟨Nat.succ_pos n, ⟨(Strategy.start s).value, ?_⟩, ?_, ?_, fun i low => ?_⟩
    · rw [Router.enter_current, size]
      rfl
    · rw [Router.enter_cells, Array.size_push, size]
      rfl
    · rw [Router.enter_depth, h.depth]
      rfl
    · rw [Router.enter_cells, Array.getElem?_push_lt (by omega), ← h.below i low,
        Array.getElem?_eq_getElem (by omega)]

/-- The same, when the levels of the moments do not start at zero. -/
theorem invariant_above_from (r : Router X S K) (n : Nat) :
    Invariant fun k q => ∃ j, k = n + j ∧ Above r j q where
  events es h := by
    obtain ⟨j, level, above⟩ := h
    exact ⟨j, level, (invariant_above r).events es above⟩
  dispatch step h := by
    obtain ⟨j, level, above⟩ := h
    exact ⟨j, level, (invariant_above r).dispatch step above⟩
  enter s h := by
    obtain ⟨j, level, above⟩ := h
    exact ⟨j + 1, congrArg Nat.succ level, (invariant_above r).enter s above⟩

variable [Resumable X S K]

/-- At every moment of an inference another inference is around it, on top of the handlers from
before, or it is over and the strategy is asked for the result. -/
theorem inside_of_mem_inferMoments {fuel n : Nat} {s : S K} {a : Action X S K} {r : Router X S K}
    {m : Moment X S K} (hm : m ∈ inferMoments fuel n s a r) :
    (∃ j, m.level = n + j ∧ Above r j m.router) ∨
      ∃ t es, m = ⟨n, { r with events := es }, .finish t⟩ := by
  cases fuel with
  | zero => simp [inferMoments] at hm
  | succ fuel =>
    rw [inferMoments] at hm
    rcases List.mem_append.1 hm with hm | hm
    · have entered : ∃ j, n + 1 = n + j ∧ Above r j (r.enter s).2 := ⟨1, rfl, above_enter r s⟩
      exact .inl ((moments_of_invariant (invariant_above_from r n) fuel).complete entered m hm)
    · split at hm
      · next q inner =>
        obtain ⟨es, left⟩ := Router.leave_enter (frame_complete inner)
        exact .inr ⟨_, es, by rw [List.mem_singleton.1 hm, left]⟩
      · simp at hm

/-- At every moment inside an inference, effects go to the strategy of the innermost inference
around, and the handlers from before are as they were. -/
theorem above_of_mem_inferMoments {fuel : Nat} {s : S K} {a : Action X S K} {r : Router X S K}
    {m : Moment X S K} (hm : m ∈ inferMoments fuel 0 s a r) :
    Above r m.level m.router ∨ ∃ t, m.use = .finish t := by
  rcases inside_of_mem_inferMoments hm with ⟨j, level, above⟩ | ⟨t, es, rfl⟩
  · rw [Nat.zero_add] at level
    exact .inl (level ▸ above)
  · exact .inr ⟨t, rfl⟩

/-! ### One program at two routers -/

/-- Effects go to handlers in the same state. -/
def Aligned (r₁ r₂ : Router X S K) : Prop :=
  ∃ i₁ i₂ c, r₁.current = some (i₁, c) ∧ r₂.current = some (i₂, c)

/-- No program looks at the router. -/
def Unobserving (ms : List (Moment X S K)) : Prop := ∀ m ∈ ms, m.isView = false

section Aligned

variable {r₁ r₂ : Router X S K}

omit [Strategy X S] [Resumable X S K]

theorem Aligned.events (h : Aligned r₁ r₂) (es₁ es₂ : Array (Event X)) :
    Aligned { r₁ with events := es₁ } { r₂ with events := es₂ } := h

/-- Aligned routers show the same name. -/
theorem Aligned.shown_eq [Strategy X S] (h : Aligned r₁ r₂) : r₁.view.name = r₂.view.name := by
  obtain ⟨i₁, i₂, c, h₁, h₂⟩ := h
  simp only [Router.view, h₁, h₂]

theorem Aligned.strategyAt_eq [Strategy X S] (h : Aligned r₁ r₂) {i₁ i₂ : Nat}
    (h₁ : r₁.active = some i₁) (h₂ : r₂.active = some i₂) (s : S K) :
    strategyAt r₁ i₁ s = strategyAt r₂ i₂ s := by
  obtain ⟨j₁, j₂, c, held₁, held₂⟩ := h
  rw [Router.current_eq_some_iff] at held₁ held₂
  obtain rfl := Option.some.inj (h₁.symm.trans held₁.1)
  obtain rfl := Option.some.inj (h₂.symm.trans held₂.1)
  unfold strategyAt
  rw [held₁.2, held₂.2]

/-- Aligned routers answer an effect alike and stay aligned. -/
theorem Aligned.dispatch [Strategy X S] (h : Aligned r₁ r₂) (step : Step X K) :
    (r₁.dispatch step).1 = (r₂.dispatch step).1 ∧
      Aligned (r₁.dispatch step).2 (r₂.dispatch step).2 := by
  obtain ⟨i₁, i₂, c, h₁, h₂⟩ := h
  cases busy : c.busy with
  | true =>
    rw [Router.dispatch_of_busy h₁ busy, Router.dispatch_of_busy h₂ busy]
    exact ⟨rfl, i₁, i₂, c, h₁, h₂⟩
  | false =>
    obtain ⟨es₁, after₁⟩ := Router.dispatch_of_free h₁ busy step
    obtain ⟨es₂, after₂⟩ := Router.dispatch_of_free h₂ busy step
    have answer : (r₁.dispatch step).1 = (r₂.dispatch step).1 := by rw [after₁, after₂]
    exact ⟨answer, i₁, i₂, _, Router.current_dispatch h₁ busy step,
      Router.current_dispatch h₂ busy step⟩

end Aligned

omit [Resumable X S K] in
/-- A program that is started under the same strategy finds aligned routers. -/
theorem aligned_enter (r₁ r₂ : Router X S K) (s : S K) :
    Aligned (r₁.enter s).2 (r₂.enter s).2 :=
  ⟨_, _, _, Router.enter_current s r₁, Router.enter_current s r₂⟩

omit [Resumable X S K] in
/-- Aligned routers cannot be told apart by what handlers answer. -/
theorem simulation_aligned : Simulation Eq (Aligned (X := X) (S := S) (K := K)) where
  refl _ := rfl
  name same := by rw [same]
  start same := by rw [same]
  finish same := by rw [same]; exact ⟨rfl, rfl⟩
  events es₁ es₂ aligned := aligned.events es₁ es₂
  shown aligned := aligned.shown_eq
  dispatch step aligned := aligned.dispatch step
  enter {r₁ r₂} s _ := aligned_enter r₁ r₂ s
  asked aligned same active₁ active₂ := by rw [same]; exact aligned.strategyAt_eq active₁ active₂ _

/-- An inference during which no program looks at the router gives the same result, and leaves its
strategy in the same state, wherever it takes place. -/
theorem infer_eq_of_unobserving {fuel : Nat} {s : S K} {a : Action X S K} {r : Router X S K}
    (unobserving : Unobserving (inferMoments fuel 0 s a r)) (r₀ : Router X S K) :
    (infer fuel s a r₀).map (fun x => (x.1, x.2.1)) =
      (infer fuel s a r).map fun x => (x.1, x.2.1) := by
  have covert : Covert Aligned (inferMoments fuel 0 s a r) := fun m hm view =>
    absurd view (by rw [unobserving m hm]; exact Bool.false_ne_true)
  -- Entering installs the same strategy on both sides, so nothing is asked of the routers.
  have entered := aligned_enter r r₀ s
  obtain ⟨result, -⟩ := (alike_of_simulation simulation_aligned fuel).infer entered rfl covert
  rcases result with ⟨run, run₀⟩ | ⟨d, t, q, t₀, q₀, run, run₀, rfl⟩
  · rw [run, run₀]
  · rw [run, run₀]
    rfl

/-- Inferences do not interfere. Every effect that is performed during an inference is answered by
the strategy of the innermost inference around it, while all handlers from before stay as they were;
they are as they were when the inference has ended, with a result or without; and if no program has
looked at the router meanwhile, the same inference gives the same at any other router, one without
handlers included. -/
theorem infer_isolated (fuel : Nat) (s : S K) (a : Action X S K) (r : Router X S K) :
    (∀ m ∈ inferMoments fuel 0 s a r, ∀ step, m.use = .dispatch step →
      Above r m.level m.router ∧ ∃ t,
        m.router.current = some (m.router.cells.size - 1, { handler := .strategy t }) ∧
        (m.router.dispatch step).1 =
          (Handler.handle (fun _ => pure Router.refusal) step t).value.1 ∧
        ∀ i < r.cells.size, (m.router.dispatch step).2.cells[i]? = r.cells[i]?) ∧
    (∀ d s' r', infer fuel s a r = some (d, s', r') →
      r'.cells = r.cells ∧ r'.active = r.active ∧ r'.depth = r.depth ∧ r'.source = r.source) ∧
    (Unobserving (inferMoments fuel 0 s a r) → ∀ r₀,
      (infer fuel s a r₀).map (fun x => (x.1, x.2.1)) =
        (infer fuel s a r).map fun x => (x.1, x.2.1)) := by
  refine ⟨fun m hm step dispatches => ?_, fun d s' r' run => ?_, infer_eq_of_unobserving⟩
  · rcases above_of_mem_inferMoments hm with above | ⟨t, finishes⟩
    -- The innermost strategy is the active one, and it is not at work: it answers by itself.
    · obtain ⟨t, active⟩ := above.current
      obtain ⟨es, after⟩ := Router.dispatch_of_free active rfl step
      have top : r.cells.size + (m.level - 1) = m.router.cells.size - 1 := by
        have pos := above.pos
        have size := above.size
        omega
      have kept := ((invariant_above r).dispatch step above).below
      exact ⟨above, t, top ▸ active, by rw [after]; rfl, kept⟩
    · simp [finishes] at dispatches
  · obtain ⟨es, after⟩ := infer_router run
    obtain rfl : r' = { r with events := es } := after
    exact ⟨rfl, rfl, rfl, rfl⟩

/-- The program inside the other fails in the same way when it is on its own, and its one effect
goes to its own strategy. -/
theorem infer_isolated_nest :
    (∃ m ∈ inferMoments 20 0 (.enumeration {}) (.start .outer) Nest.router, ∃ step,
      m.use = .dispatch step ∧ Above Nest.router 2 m.router ∧
        ∀ i < Nest.router.cells.size, (m.router.dispatch step).2.cells[i]? = Nest.router.cells[i]?) ∧
    (∃ d s r', infer 20 (.enumeration {}) (.start .outer) Nest.router = some (d, s, r') ∧
      r'.cells = Nest.router.cells) ∧
    Unobserving (inferMoments 20 0 (.enumeration {}) (.start .outer) Nest.router) ∧
    (infer 20 (.enumeration {}) (.start .outer) { source := .ofWords #[] }).map
        (fun x => (x.1, x.2.1)) =
      (infer 20 (.enumeration {}) (.start .outer) Nest.router).map fun x => (x.1, x.2.1) := by
  obtain ⟨handled, restored, same⟩ :=
    infer_isolated 20 (.enumeration {}) (.start .outer) Nest.router
  have unobserving :
      Unobserving (inferMoments 20 0 (.enumeration {}) (.start .outer) Nest.router) := by
    unfold Unobserving
    decide +kernel
  refine ⟨?_, ?_, unobserving, same unobserving _⟩
  · have inside : (inferMoments 20 0 (.enumeration {}) (.start .outer) Nest.router).any
        (fun m => m.level == 2 && m.step?.isSome) = true := by
      decide +kernel
    obtain ⟨m, hm, found⟩ := List.any_eq_true.1 inside
    rw [Bool.and_eq_true, beq_iff_eq] at found
    obtain ⟨step, forwards⟩ := Option.isSome_iff_exists.1 found.2
    rw [Moment.step?_eq_some_iff] at forwards
    obtain ⟨above, _, -, -, kept⟩ := handled m hm step forwards
    exact ⟨m, hm, step, forwards, found.1 ▸ above, kept⟩
  · obtain ⟨⟨d, s, r'⟩, run⟩ := Option.isSome_iff_exists.1
      (show (infer 20 (.enumeration {}) (.start .outer) Nest.router).isSome by decide +kernel)
    exact ⟨d, s, r', run, (restored d s r' run).1⟩

end Posterior.Run
