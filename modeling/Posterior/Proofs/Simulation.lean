import Mathlib.Data.List.Forall2
import Posterior.Proofs.Moments

/-!
# Two runs side by side

The same program may run at two routers that differ, under strategies that differ. If the routers
cannot be told apart by what handlers answer, and the strategies not by the results that they give,
then the two runs go alike: they come to the same outcomes through the same uses of the router, and
one is out of fuel when the other is.

A look at the router may show more than effects can. So the runs are only compared as long as
nothing shows up at the moments when a program looks.

## Main definitions

* `Run.Simulation` — routers and strategies that cannot be told apart
* `Run.Covert` — moments at which no program sees a difference

## Main results

* `Run.alike_of_simulation` — the runs of a program go alike
-/

namespace Posterior.Run

variable {X : Type} {S : Type → Type} {K : Type} [Strategy X S]

/-! ### What two runs have in common -/

/-- The same use of two routers, up to the strategies that are asked for their results. -/
inductive Use.Rel (Q : S K → S K → Prop) : Use X S K → Use X S K → Prop where
  | dispatch (step : Step X K) : Use.Rel Q (.dispatch step) (.dispatch step)
  | view : Use.Rel Q .view .view
  | finish {s₁ s₂ : S K} : Q s₁ s₂ → Use.Rel Q (.finish s₁) (.finish s₂)

/-- The same use of related routers, inside as many inferences. -/
structure Moment.Rel (Q : S K → S K → Prop) (R : Router X S K → Router X S K → Prop)
    (m₁ m₂ : Moment X S K) : Prop where
  level : m₁.level = m₂.level
  router : R m₁.router m₂.router
  use : Use.Rel Q m₁.use m₂.use

/-- Two runs give the same answer and leave related routers, or neither gives an answer. -/
def Agree {α : Type} (R : Router X S K → Router X S K → Prop)
    (o₁ o₂ : Option (α × Router X S K)) : Prop :=
  (o₁ = none ∧ o₂ = none) ∨ ∃ x r₁ r₂, o₁ = some (x, r₁) ∧ o₂ = some (x, r₂) ∧ R r₁ r₂

/-- Two inferences give the same result and leave related strategies, or neither gives a result. -/
def SameResult (Q : S K → S K → Prop)
    (o₁ o₂ : Option (Result (Distribution X) × S K × Router X S K)) : Prop :=
  (o₁ = none ∧ o₂ = none) ∨
    ∃ d s₁ r₁ s₂ r₂, o₁ = some (d, s₁, r₁) ∧ o₂ = some (d, s₂, r₂) ∧ Q s₁ s₂

/-- Whenever a program looks at the router, it sees what it would see at any related one. -/
def Covert (R : Router X S K → Router X S K → Prop) (ms : List (Moment X S K)) : Prop :=
  ∀ m ∈ ms, m.isView = true → ∀ r, R m.router r → m.router.view = r.view

section Covert

variable {R : Router X S K → Router X S K → Prop} {m : Moment X S K} {ms ms' : List (Moment X S K)}

@[simp] theorem covert_cons :
    Covert R (m :: ms) ↔
      (m.isView = true → ∀ r, R m.router r → m.router.view = r.view) ∧ Covert R ms :=
  List.forall_mem_cons

@[simp] theorem covert_append : Covert R (ms ++ ms') ↔ Covert R ms ∧ Covert R ms' :=
  List.forall_mem_append

theorem covert_of_view (h : ∀ {r₁ r₂}, R r₁ r₂ → r₁.view = r₂.view) (ms : List (Moment X S K)) :
    Covert R ms :=
  fun _ _ _ _ related => h related

end Covert

section Agree

omit [Strategy X S]

/-- What cannot tell related moments apart is the same all along two related runs. -/
theorem map_eq_of_forall₂ {α : Type} {P : Moment X S K → Moment X S K → Prop}
    {f : Moment X S K → α} (h : ∀ m₁ m₂, P m₁ m₂ → f m₁ = f m₂) {ms₁ ms₂ : List (Moment X S K)}
    (related : List.Forall₂ P ms₁ ms₂) : ms₁.map f = ms₂.map f := by
  have same : List.Forall₂ (· = ·) (ms₁.map f) (ms₂.map f) := List.rel_map h related
  rwa [List.forall₂_eq_eq_eq] at same

variable {α : Type} {R : Router X S K → Router X S K → Prop}

theorem Agree.none : Agree R (none : Option (α × Router X S K)) none := .inl ⟨rfl, rfl⟩

theorem Agree.some {r₁ r₂ : Router X S K} (x : α) (h : R r₁ r₂) :
    Agree R (some (x, r₁)) (some (x, r₂)) :=
  .inr ⟨x, r₁, r₂, rfl, rfl, h⟩

theorem SameResult.some {Q : S K → S K → Prop}
    {x₁ x₂ : Result (Distribution X) × S K × Router X S K} (result : x₁.1 = x₂.1)
    (left : Q x₁.2.1 x₂.2.1) : SameResult Q (some x₁) (some x₂) :=
  .inr ⟨x₁.1, x₁.2.1, x₁.2.2, x₂.2.1, x₂.2.2, rfl,
    congrArg Option.some (Prod.ext result.symm rfl), left⟩

end Agree

/-! ### Runs from related routers -/

/-- What strategies related by `Q` and routers related by `R` have to satisfy so that no run tells
them apart. -/
structure Simulation (Q : S K → S K → Prop) (R : Router X S K → Router X S K → Prop) : Prop where
  refl : ∀ s, Q s s
  name : ∀ {s₁ s₂}, Q s₁ s₂ → Handler.name s₁ = Handler.name s₂
  start : ∀ {s₁ s₂}, Q s₁ s₂ → Q (Strategy.start s₁).value (Strategy.start s₂).value
  finish : ∀ {s₁ s₂}, Q s₁ s₂ →
    (Strategy.finish s₁).value.1 = (Strategy.finish s₂).value.1 ∧
      Q (Strategy.finish s₁).value.2 (Strategy.finish s₂).value.2
  events : ∀ {r₁ r₂} es₁ es₂, R r₁ r₂ → R { r₁ with events := es₁ } { r₂ with events := es₂ }
  shown : ∀ {r₁ r₂}, R r₁ r₂ → r₁.view.name = r₂.view.name
  dispatch : ∀ {r₁ r₂} step, R r₁ r₂ →
    (r₁.dispatch step).1 = (r₂.dispatch step).1 ∧ R (r₁.dispatch step).2 (r₂.dispatch step).2
  enter : ∀ {r₁ r₂} s, R r₁ r₂ → R (r₁.enter s).2 (r₂.enter s).2
  asked : ∀ {r₁ r₂ s₁ s₂ i₁ i₂}, R r₁ r₂ → Q s₁ s₂ → r₁.active = some i₁ → r₂.active = some i₂ →
    Q (strategyAt r₁ i₁ s₁) (strategyAt r₂ i₂ s₂)

variable {Q : S K → S K → Prop} {R : Router X S K → Router X S K → Prop}

namespace Simulation

theorem report (h : Simulation Q R) {r₁ r₂ : Router X S K} (related : R r₁ r₂) (e₁ e₂ : Event X) :
    R (r₁.report e₁) (r₂.report e₂) :=
  h.events _ _ related

/-- A run that ends without a value fails alike. -/
theorem valueOf_eq (h : Simulation Q R) {r₁ r₂ : Router X S K} (related : R r₁ r₂)
    (outcome : Result (Option Value)) : valueOf r₁ outcome = valueOf r₂ outcome := by
  unfold valueOf
  rw [h.shown related]

/-- Whether a strategy is asked, and what for, is up to the outcome of the program. -/
theorem conclude (h : Simulation Q R) {s₁ s₂ : S K} (same : Q s₁ s₂) (name : String)
    (outcome : Result (Option Value)) (r₁ r₂ : Router X S K) :
    (Run.conclude name s₁ outcome r₁).1 = (Run.conclude name s₂ outcome r₂).1 ∧
      Q (Run.conclude name s₁ outcome r₁).2.1 (Run.conclude name s₂ outcome r₂).2.1 := by
  match outcome with
  | .error e => exact ⟨rfl, same⟩
  | .ok (some v) => exact ⟨rfl, same⟩
  | .ok none => exact h.finish same

end Simulation

variable [Resumable X S K]

/-- Inferences give the same result if their programs go alike, and their moments are those of the
programs, with one more on either side if the strategies are asked. -/
theorem Simulation.infer (h : Simulation Q R) {fuel n : Nat} {s₁ s₂ : S K} {a : Action X S K}
    {r₁ r₂ : Router X S K} (same : Q s₁ s₂)
    (program : Agree R (complete fuel a (r₁.enter s₁).2) (complete fuel a (r₂.enter s₂).2))
    (moments : List.Forall₂ (Moment.Rel Q R) (completeMoments fuel (n + 1) a (r₁.enter s₁).2)
      (completeMoments fuel (n + 1) a (r₂.enter s₂).2))
    {P : Moment X S K → Moment X S K → Prop} (inside : ∀ {m₁ m₂}, Moment.Rel Q R m₁ m₂ → P m₁ m₂)
    (last : ∀ es₁ es₂ t₁ t₂, Q t₁ t₂ →
      P ⟨n, { r₁ with events := es₁ }, .finish t₁⟩ ⟨n, { r₂ with events := es₂ }, .finish t₂⟩) :
    SameResult Q (Run.infer (fuel + 1) s₁ a r₁) (Run.infer (fuel + 1) s₂ a r₂) ∧
      List.Forall₂ P (inferMoments (fuel + 1) n s₁ a r₁) (inferMoments (fuel + 1) n s₂ a r₂) := by
  have moments := moments.imp fun _ _ => inside
  rw [infer_succ, infer_succ, inferMoments, inferMoments, h.name (h.start same)]
  rcases program with ⟨run₁, run₂⟩ | ⟨outcome, q₁, q₂, run₁, run₂, after⟩
  · rw [run₁, run₂]
    exact ⟨.inl ⟨rfl, rfl⟩, List.rel_append moments .nil⟩
  · have frame₁ := frame_complete run₁
    have frame₂ := frame_complete run₂
    have asked := h.asked after (h.start same) frame₁.active frame₂.active
    rw [run₁, run₂]
    constructor
    · obtain ⟨result, left⟩ := h.conclude asked (Handler.name (Strategy.start s₂).value) outcome
        (q₁.leave (r₁.enter s₁).1) (q₂.leave (r₂.enter s₂).1)
      exact .some result left
    · obtain ⟨es₁, left₁⟩ := Router.leave_enter frame₁
      obtain ⟨es₂, left₂⟩ := Router.leave_enter frame₂
      refine List.rel_append moments ?_
      rcases outcome with e | _ | v
      · exact .nil
      · simp only [left₁, left₂]
        exact .cons (last es₁ es₂ _ _ asked) .nil
      · exact .nil

/-- Runs with the given fuel from related routers go alike, and so do inferences that enter related
routers. -/
structure Alike (Q : S K → S K → Prop) (R : Router X S K → Router X S K → Prop) (fuel : Nat) :
    Prop where
  advance : ∀ {n a r₁ r₂}, R r₁ r₂ → Covert R (advanceMoments fuel n a r₁) →
    Agree R (advance fuel a r₁) (advance fuel a r₂) ∧
      List.Forall₂ (Moment.Rel Q R) (advanceMoments fuel n a r₁) (advanceMoments fuel n a r₂)
  drive : ∀ {n i step r₁ r₂}, R r₁ r₂ → Covert R (driveMoments fuel n i step r₁) →
    Agree R (drive fuel i step r₁) (drive fuel i step r₂) ∧
      List.Forall₂ (Moment.Rel Q R) (driveMoments fuel n i step r₁) (driveMoments fuel n i step r₂)
  complete : ∀ {n a r₁ r₂}, R r₁ r₂ → Covert R (completeMoments fuel n a r₁) →
    Agree R (complete fuel a r₁) (complete fuel a r₂) ∧
      List.Forall₂ (Moment.Rel Q R) (completeMoments fuel n a r₁) (completeMoments fuel n a r₂)
  infer : ∀ {n s₁ s₂ a r₁ r₂}, R (r₁.enter s₁).2 (r₂.enter s₂).2 → Q s₁ s₂ →
    Covert R (inferMoments fuel n s₁ a r₁) →
    SameResult Q (infer fuel s₁ a r₁) (infer fuel s₂ a r₂) ∧
      (R r₁ r₂ →
        List.Forall₂ (Moment.Rel Q R) (inferMoments fuel n s₁ a r₁) (inferMoments fuel n s₂ a r₂))

section Step

variable (h : Simulation Q R) {fuel n : Nat} (ih : Alike Q R fuel) {r₁ r₂ : Router X S K}

include h ih

/-- The next thing that a program does goes alike, and what comes after it. -/
theorem alike_advance (a : Action X S K) (related : R r₁ r₂)
    (covert : Covert R (advanceMoments (fuel + 1) n a r₁)) :
    Agree R (advance (fuel + 1) a r₁) (advance (fuel + 1) a r₂) ∧
      List.Forall₂ (Moment.Rel Q R) (advanceMoments (fuel + 1) n a r₁)
        (advanceMoments (fuel + 1) n a r₂) := by
  cases a with
  | perform step => exact ⟨.some _ related, by simp [advanceMoments]⟩
  | fail e => exact ⟨.some _ related, by simp [advanceMoments]⟩
  | display v k =>
    rw [advanceMoments] at covert
    rw [advance, advance, advanceMoments, advanceMoments]
    exact ih.advance (h.report related _ _) covert
  | probe k =>
    rw [advanceMoments, covert_cons] at covert
    obtain ⟨seen, covert⟩ := covert
    have same : r₁.view = r₂.view := seen rfl r₂ related
    rw [advance, advance, advanceMoments, advanceMoments, ← same]
    obtain ⟨agree, moments⟩ := ih.advance related covert
    exact ⟨agree, .cons ⟨rfl, related, .view⟩ moments⟩
  | dispatch step k =>
    rw [advanceMoments, covert_cons] at covert
    obtain ⟨answer, after⟩ := h.dispatch step related
    rw [advance, advance, advanceMoments, advanceMoments]
    simp only [← answer]
    obtain ⟨agree, moments⟩ := ih.advance after covert.2
    exact ⟨agree, .cons ⟨rfl, related, .dispatch step⟩ moments⟩
  | infer s p k =>
    rw [advanceMoments, covert_append] at covert
    rw [advance, advance, advanceMoments, advanceMoments]
    obtain ⟨inner, innerMoments⟩ := ih.infer (h.enter s related) (h.refl s) covert.1
    have innerMoments := innerMoments related
    rcases inner with ⟨run₁, run₂⟩ | ⟨d, s₁, q₁, s₂, q₂, run₁, run₂, -⟩
    · rw [run₁, run₂]
      exact ⟨.none, List.rel_append innerMoments .nil⟩
    · -- Both inferences give back their routers, which were related before.
      obtain ⟨es₁, after₁⟩ := infer_router run₁
      obtain ⟨es₂, after₂⟩ := infer_router run₂
      have restored : R q₁ q₂ := by
        rw [show q₁ = _ from after₁, show q₂ = _ from after₂]
        exact h.events es₁ es₂ related
      rw [run₁] at covert
      rw [run₁, run₂]
      obtain ⟨agree, moments⟩ := ih.advance restored covert.2
      exact ⟨agree, List.rel_append innerMoments moments⟩
  | run p k =>
    rw [advanceMoments, covert_append] at covert
    rw [advance, advance, advanceMoments, advanceMoments]
    obtain ⟨inner, innerMoments⟩ := ih.complete related covert.1
    rcases inner with ⟨run₁, run₂⟩ | ⟨outcome, q₁, q₂, run₁, run₂, after⟩
    · rw [run₁, run₂]
      exact ⟨.none, List.rel_append innerMoments .nil⟩
    · rw [run₁] at covert
      rw [run₁, run₂]
      simp only [← h.valueOf_eq after outcome]
      obtain ⟨agree, moments⟩ := ih.advance after covert.2
      exact ⟨agree, List.rel_append innerMoments moments⟩
  | drive step k =>
    rw [advanceMoments, covert_append] at covert
    rw [advance, advance, advanceMoments, advanceMoments]
    obtain ⟨inner, innerMoments⟩ := ih.drive related covert.1
    rcases inner with ⟨run₁, run₂⟩ | ⟨outcome, q₁, q₂, run₁, run₂, after⟩
    · rw [run₁, run₂]
      exact ⟨.none, List.rel_append innerMoments .nil⟩
    · rw [run₁] at covert
      rw [run₁, run₂]
      obtain ⟨agree, moments⟩ := ih.advance after covert.2
      exact ⟨agree, List.rel_append innerMoments moments⟩

/-- An effect gets the same answer, and what the program goes on with goes alike. -/
theorem alike_drive (i : Nat) (step : Step X K) (related : R r₁ r₂)
    (covert : Covert R (driveMoments (fuel + 1) n i step r₁)) :
    Agree R (drive (fuel + 1) i step r₁) (drive (fuel + 1) i step r₂) ∧
      List.Forall₂ (Moment.Rel Q R) (driveMoments (fuel + 1) n i step r₁)
        (driveMoments (fuel + 1) n i step r₂) := by
  rw [driveMoments, covert_cons] at covert
  rw [drive, drive, driveMoments, driveMoments]
  obtain ⟨answer, after⟩ := h.dispatch step related
  rcases answer₁ : r₁.dispatch step with ⟨x₁, q₁⟩
  rcases answer₂ : r₂.dispatch step with ⟨x₂, q₂⟩
  rw [answer₁, answer₂] at answer after
  obtain rfl : x₁ = x₂ := answer
  rw [answer₁] at covert
  have first : Moment.Rel Q R ⟨n, r₁, .dispatch step⟩ ⟨n, r₂, .dispatch step⟩ :=
    ⟨rfl, related, .dispatch step⟩
  rcases x₁ with e | ⟨k, v⟩ | v
  · exact ⟨.some _ after, .cons first .nil⟩
  · obtain ⟨-, covert⟩ := covert
    obtain ⟨covert, covertRest⟩ := covert_append.1 covert
    obtain ⟨outcome, moments⟩ :=
      ih.advance (h.report after (.resumed v) (.resumed v)) covert
    rcases outcome with ⟨run₁, run₂⟩ | ⟨next, p₁, p₂, run₁, run₂, reached⟩
    · simp only [run₁, run₂]
      exact ⟨.none, .cons first (List.rel_append moments .nil)⟩
    · simp only [run₁] at covertRest
      simp only [run₁, run₂]
      cases next with
      | error e => exact ⟨.some _ reached, .cons first (List.rel_append moments .nil)⟩
      | ok step =>
        obtain ⟨agree, rest⟩ := ih.drive reached covertRest
        exact ⟨agree, .cons first (List.rel_append moments rest)⟩
  · exact ⟨.some _ (h.report after _ _), .cons first .nil⟩

omit h in
theorem alike_complete (a : Action X S K) (related : R r₁ r₂)
    (covert : Covert R (completeMoments (fuel + 1) n a r₁)) :
    Agree R (complete (fuel + 1) a r₁) (complete (fuel + 1) a r₂) ∧
      List.Forall₂ (Moment.Rel Q R) (completeMoments (fuel + 1) n a r₁)
        (completeMoments (fuel + 1) n a r₂) := by
  rw [completeMoments, covert_append] at covert
  rw [complete, complete, completeMoments, completeMoments]
  obtain ⟨outcome, moments⟩ := ih.advance related covert.1
  rcases outcome with ⟨run₁, run₂⟩ | ⟨next, q₁, q₂, run₁, run₂, after⟩
  · rw [run₁, run₂]
    exact ⟨.none, List.rel_append moments .nil⟩
  · rw [run₁] at covert
    rw [run₁, run₂]
    cases next with
    | error e => exact ⟨.some _ after, List.rel_append moments .nil⟩
    | ok step =>
      obtain ⟨agree, rest⟩ := ih.drive after covert.2
      exact ⟨agree, List.rel_append moments rest⟩

/-- For the results alone it is enough that the entered routers cannot be told apart. -/
theorem alike_infer {s₁ s₂ : S K} (a : Action X S K) (entered : R (r₁.enter s₁).2 (r₂.enter s₂).2)
    (same : Q s₁ s₂) (covert : Covert R (inferMoments (fuel + 1) n s₁ a r₁)) :
    SameResult Q (infer (fuel + 1) s₁ a r₁) (infer (fuel + 1) s₂ a r₂) ∧
      (R r₁ r₂ → List.Forall₂ (Moment.Rel Q R) (inferMoments (fuel + 1) n s₁ a r₁)
        (inferMoments (fuel + 1) n s₂ a r₂)) := by
  rw [inferMoments, covert_append] at covert
  obtain ⟨program, moments⟩ := ih.complete entered covert.1
  constructor
  · exact (h.infer same program moments (fun _ => trivial)
      fun _ _ _ _ _ => trivial).1
  · intro related
    exact (h.infer same program moments id fun es₁ es₂ _ _ asked =>
      ⟨rfl, h.events es₁ es₂ related, .finish asked⟩).2

end Step

/-- Runs from routers that cannot be told apart go alike. -/
theorem alike_of_simulation (h : Simulation Q R) (fuel : Nat) : Alike Q R fuel := by
  induction fuel with
  | zero =>
    refine ⟨?_, ?_, ?_, ?_⟩
    · exact fun _ _ => ⟨.none, by simp [advanceMoments]⟩
    · exact fun _ _ => ⟨.none, by simp [driveMoments]⟩
    · exact fun _ _ => ⟨.none, by simp [completeMoments]⟩
    · exact fun _ _ _ => ⟨.inl ⟨rfl, rfl⟩, fun _ => by simp [inferMoments]⟩
  | succ fuel ih =>
    exact ⟨alike_advance h ih _, alike_drive h ih _ _, alike_complete ih _, alike_infer h ih _⟩

end Posterior.Run
