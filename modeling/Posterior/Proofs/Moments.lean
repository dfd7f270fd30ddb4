import Posterior.Proofs.Restoration

/-!
# The moments of a run

A run makes use of the router when it forwards an effect, when its program looks at the router, and
when an inference asks its strategy for the result. The moments of a run are these uses in order,
each with the router that it finds and with the number of inferences around it. They are defined
along the run itself, so they are there also for a run that does not come to an end: what happens in
the given fuel.

## Main definitions

* `Run.Moment` — one use of the router
* `Run.advanceMoments`, `Run.driveMoments`, `Run.completeMoments`, `Run.inferMoments` — the moments
  of a run
* `Run.Moment.step?` — the effect that a moment forwards

## Main results

* `Run.moments_of_invariant` — what the transitions of the router keep holds at every moment
-/

namespace Posterior.Run

variable {X : Type} {S : Type → Type} {K : Type}

/-- How a run makes use of the router. -/
inductive Use (X : Type) (S : Type → Type) (K : Type) where
  /-- It forwards an effect. -/
  | dispatch (step : Step X K)
  /-- Its program looks at the router. -/
  | view
  /-- An inference that has brought back what was active before asks its strategy for the result. -/
  | finish (strategy : S K)

/-- One use of the router. -/
structure Moment (X : Type) (S : Type → Type) (K : Type) where
  /-- How many inferences are around it, counted from where the run starts. -/
  level : Nat
  /-- The router that it finds. -/
  router : Router X S K
  /-- The use that is made of it. -/
  use : Use X S K

/-- Whether a moment is a program's look at the router. -/
def Moment.isView (m : Moment X S K) : Bool :=
  match m.use with
  | .view => true
  | _ => false

/-- The effect that a moment forwards. -/
def Moment.step? (m : Moment X S K) : Option (Step X K) :=
  match m.use with
  | .dispatch step => some step
  | _ => none

theorem Moment.step?_eq_some_iff {m : Moment X S K} {step : Step X K} :
    m.step? = some step ↔ m.use = .dispatch step := by
  unfold Moment.step?
  split <;> simp_all

section Definitions

variable [Strategy X S] [Resumable X S K]

mutual

/-- The moments of a computation up to its next effect. -/
def advanceMoments : Nat → Nat → Action X S K → Router X S K → List (Moment X S K)
  | 0, _, _, _ => []
  | fuel + 1, level, action, r =>
    match action with
    | .perform _ => []
    | .fail _ => []
    | .display v k => advanceMoments fuel level (.start k) (r.report (.displayed v))
    | .probe k => ⟨level, r, .view⟩ :: advanceMoments fuel level (.start (k r.view)) r
    | .infer strategy program k =>
      inferMoments fuel level strategy (.start program) r ++
        match infer fuel strategy (.start program) r with
        | none => []
        | some (d, _, r) => advanceMoments fuel level (.start (k d)) r
    | .run program k =>
      completeMoments fuel level (.start program) r ++
        match complete fuel (.start program) r with
        | none => []
        | some (outcome, r) => advanceMoments fuel level (.start (k (valueOf r outcome))) r
    | .drive step k =>
      driveMoments fuel level 0 step r ++
        match drive fuel 0 step r with
        | none => []
        | some (outcome, r) => advanceMoments fuel level (.start (k outcome)) r
    | .dispatch step k =>
      ⟨level, r, .dispatch step⟩ ::
        advanceMoments fuel level (.start (k (r.dispatch step).1)) (r.dispatch step).2

/-- The moments of an effect and all that it leads to, up to the halt. -/
def driveMoments : Nat → Nat → Nat → Step X K → Router X S K → List (Moment X S K)
  | 0, _, _, _, _ => []
  | fuel + 1, level, n, step, r =>
    ⟨level, r, .dispatch step⟩ ::
      match r.dispatch step with
      | (.ok (.resume k v), r) =>
        advanceMoments fuel level (Resumable.resume k v) (r.report (.resumed v)) ++
          match advance fuel (Resumable.resume k v) (r.report (.resumed v)) with
          | some (.ok step, r) => driveMoments fuel level (n + 1) step r
          | _ => []
      | _ => []

/-- The moments of a computation, up to the halt. -/
def completeMoments : Nat → Nat → Action X S K → Router X S K → List (Moment X S K)
  | 0, _, _, _ => []
  | fuel + 1, level, action, r =>
    advanceMoments fuel level action r ++
      match advance fuel action r with
      | some (.ok step, r) => driveMoments fuel level 0 step r
      | _ => []

/-- The moments of an inference. Those of its program have one more inference around them. -/
def inferMoments : Nat → Nat → S K → Action X S K → Router X S K → List (Moment X S K)
  | 0, _, _, _, _ => []
  | fuel + 1, level, strategy, action, r =>
    completeMoments fuel (level + 1) action (r.enter strategy).2 ++
      match complete fuel action (r.enter strategy).2 with
      | some (.ok none, q) =>
        [⟨level, q.leave (r.enter strategy).1,
          .finish (strategyAt q r.cells.size (Strategy.start strategy).value)⟩]
      | _ => []

end

end Definitions

/-! ### What holds at every moment -/

variable [Strategy X S]

/-- What a property of routers inside a number of inferences has to satisfy so that runs keep it. -/
structure Invariant (I : Nat → Router X S K → Prop) : Prop where
  events : ∀ {n r} es, I n r → I n { r with events := es }
  dispatch : ∀ {n r} step, I n r → I n (r.dispatch step).2
  enter : ∀ {n r} s, I n r → I (n + 1) (r.enter s).2

variable {I : Nat → Router X S K → Prop}

/-- An invariant holds after a run if it holds before: leaving an inference gives back the router
from before it. -/
theorem Invariant.preserved (h : Invariant I) :
    Preserved fun r r' : Router X S K => r.Frame r' ∧ ∀ n, I n r → I n r' where
  refl r := ⟨.refl r, fun _ => id⟩
  trans h h' := ⟨h.1.trans h'.1, fun n before => h'.2 n (h.2 n before)⟩
  report r _ := ⟨.events r _, fun _ => h.events _⟩
  dispatch r step := ⟨.dispatch r step, fun _ => h.dispatch step⟩
  infer {s r q es} inner := by
    obtain ⟨es', left⟩ := Router.leave_enter inner.1
    rw [left]
    exact ⟨.events r es, fun _ => h.events es⟩

variable [Resumable X S K]

/-- The property holds at every moment of a run with the given fuel. -/
structure Throughout (I : Nat → Router X S K → Prop) (fuel : Nat) : Prop where
  advance : ∀ {n a r}, I n r → ∀ m ∈ advanceMoments fuel n a r, I m.level m.router
  drive : ∀ {n i step r}, I n r → ∀ m ∈ driveMoments fuel n i step r, I m.level m.router
  complete : ∀ {n a r}, I n r → ∀ m ∈ completeMoments fuel n a r, I m.level m.router
  infer : ∀ {n s a r}, I n r → ∀ m ∈ inferMoments fuel n s a r, I m.level m.router

section Step

variable (h : Invariant I) {fuel n : Nat} (ih : Throughout I fuel) {r : Router X S K}
  (before : I n r)

include h ih before

/-- The moments after a nested run start from the router that it has left. -/
theorem throughout_advance (a : Action X S K) :
    ∀ m ∈ advanceMoments (fuel + 1) n a r, I m.level m.router := by
  have kept := related_of_preserved h.preserved (S := S) (K := K) fuel
  intro m hm
  cases a with
  | perform step => simp [advanceMoments] at hm
  | fail e => simp [advanceMoments] at hm
  | display v k =>
    rw [advanceMoments] at hm
    exact ih.advance (h.events _ before) m hm
  | probe k =>
    rw [advanceMoments] at hm
    rcases List.mem_cons.1 hm with rfl | hm
    · exact before
    · exact ih.advance before m hm
  | dispatch step k =>
    rw [advanceMoments] at hm
    rcases List.mem_cons.1 hm with rfl | hm
    · exact before
    · exact ih.advance (h.dispatch step before) m hm
  | infer s p k =>
    rw [advanceMoments] at hm
    rcases List.mem_append.1 hm with hm | hm
    · exact ih.infer before m hm
    · split at hm
      · simp at hm
      · next inner => exact ih.advance ((kept.infer inner).2 n before) m hm
  | run p k =>
    rw [advanceMoments] at hm
    rcases List.mem_append.1 hm with hm | hm
    · exact ih.complete before m hm
    · split at hm
      · simp at hm
      · next inner => exact ih.advance ((kept.complete inner).2 n before) m hm
  | drive step k =>
    rw [advanceMoments] at hm
    rcases List.mem_append.1 hm with hm | hm
    · exact ih.drive before m hm
    · split at hm
      · simp at hm
      · next inner => exact ih.advance ((kept.drive inner).2 n before) m hm

/-- The moments after an effect start from the router that its handler has left. -/
theorem throughout_drive (i : Nat) (step : Step X K) :
    ∀ m ∈ driveMoments (fuel + 1) n i step r, I m.level m.router := by
  have kept := related_of_preserved h.preserved (S := S) (K := K) fuel
  intro m hm
  rw [driveMoments] at hm
  rcases List.mem_cons.1 hm with rfl | hm
  · exact before
  · -- The effect may have changed the router: from here on its state after the answer counts.
    have after := h.dispatch step before
    split at hm
    · next k v q answer =>
      rw [answer] at after
      have resumed : I n (q.report (.resumed v)) := h.events _ after
      rcases List.mem_append.1 hm with hm | hm
      · exact ih.advance resumed m hm
      · split at hm
        · next rest => exact ih.drive ((kept.advance rest).2 n resumed) m hm
        · simp at hm
    · simp at hm

theorem throughout_complete (a : Action X S K) :
    ∀ m ∈ completeMoments (fuel + 1) n a r, I m.level m.router := by
  have kept := related_of_preserved h.preserved (S := S) (K := K) fuel
  intro m hm
  rw [completeMoments] at hm
  rcases List.mem_append.1 hm with hm | hm
  · exact ih.advance before m hm
  · split at hm
    · next first => exact ih.drive ((kept.advance first).2 n before) m hm
    · simp at hm

/-- When the strategy is asked for the result, the router is the one from before. -/
theorem throughout_infer (s : S K) (a : Action X S K) :
    ∀ m ∈ inferMoments (fuel + 1) n s a r, I m.level m.router := by
  intro m hm
  rw [inferMoments] at hm
  rcases List.mem_append.1 hm with hm | hm
  · exact ih.complete (h.enter s before) m hm
  · split at hm
    · next q inner =>
      obtain ⟨es, left⟩ := Router.leave_enter (frame_complete inner)
      rw [List.mem_singleton.1 hm, left]
      exact h.events es before
    · simp at hm

end Step

/-- An invariant that holds where a run starts holds at every moment of it. -/
theorem moments_of_invariant (h : Invariant I) (fuel : Nat) : Throughout I fuel := by
  induction fuel with
  | zero =>
    exact ⟨by simp [advanceMoments], by simp [driveMoments], by simp [completeMoments],
      by simp [inferMoments]⟩
  | succ fuel ih =>
    exact ⟨fun before => throughout_advance h ih before _,
      fun before => throughout_drive h ih before _ _,
      fun before => throughout_complete h ih before _,
      fun before => throughout_infer h ih before _ _⟩

end Posterior.Run
