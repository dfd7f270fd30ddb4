import Posterior.Proofs.Deferral

/-!
# Direct sampling and the default handler

Forward sampling keeps the value of a program and makes a point mass of it; a sampler that is
installed by hand gives the value back. Between the effects of a program that leaves the router
alone the two cannot be told apart: they draw the same values from the same source, and one fails
when the other does. They differ in how they turn down a constraint, and in what they do with the
value at the end.

The handlers are different, so the routers are too, in the cell that effects go to. An inference
inside the program puts its own strategy on top, and what is above that cell is the same.

## Main definitions

* `Action.Plain` — programs that leave the router alone
* `Router.withSampler` — a router with a sampler installed
* `Run.Paired` — routers whose active handlers sample from the same source
* `Run.Twin` — what corresponding moments of the two runs have in common
* `Run.SameEnd` — the ends of the two runs

## Main results

* `Run.paired_drive` — the two runs stay in lockstep
* `Run.infer_sampling_iff_run` — forward sampling and the default handler agree
-/

namespace Posterior

variable {X : Type} {S T : Type → Type} {K : Type}

/-! ### Programs that leave the router alone -/

/-- The computation performs an effect, fails, displays a value or infers another program, whatever
that does, and what it goes on with satisfies `P`. -/
def Action.Within (P : K → Prop) : Action X S K → Prop
  | perform step => step.Within P
  | fail _ => True
  | display _ k => P k
  | infer _ _ next => ∀ d, P (next d)
  | probe _ => False
  | run _ _ => False
  | drive _ _ => False
  | dispatch _ _ => False

/-- Whatever is resumed again stays within `P`. -/
def Closed (X : Type) (S : Type → Type) {K : Type} [Resumable X S K] (P : K → Prop) : Prop :=
  ∀ k v, P k → (Resumable.resume k v : Action X S K).Within P

theorem Action.Within.defers {P : K → Prop} {a : Action X S K} (within : a.Within P) :
    a.Defers P := by
  cases a with
  | perform | fail | display | infer => exact within
  | probe | run | drive | dispatch => exact within.elim

theorem Closed.deferring [Resumable X S K] {P : K → Prop} (closed : Closed X S P) :
    Deferring X S P :=
  fun k v hk => (closed k v hk).defers

/-- The program never looks at the router, and never runs, drives or forwards anything by itself. -/
def Action.Plain [Resumable X S K] (a : Action X S K) : Prop :=
  ∃ P : K → Prop, a.Within P ∧ Closed X S P

/-! ### Above a cell -/

namespace Run

/-- The routers have the same cells from the given one on, one of which is active on both. -/
structure SameAbove (b : Nat) (r₁ r₂ : Router X S K) : Prop where
  base : b ≤ r₁.cells.size
  size : r₁.cells.size = r₂.cells.size
  depth : r₁.depth = r₂.depth
  current : ∃ i c, b ≤ i ∧ r₁.current = some (i, c) ∧ r₂.current = some (i, c)
  cells : ∀ i, b ≤ i → r₁.cells[i]? = r₂.cells[i]?

section SameAbove

variable {b : Nat} {r₁ r₂ : Router X S K}

theorem SameAbove.aligned (h : SameAbove b r₁ r₂) : Aligned r₁ r₂ := by
  obtain ⟨i, c, -, active₁, active₂⟩ := h.current
  exact ⟨i, i, c, active₁, active₂⟩

variable [Strategy X S]

theorem SameAbove.view_eq (h : SameAbove b r₁ r₂) : r₁.view = r₂.view := by
  obtain ⟨i, c, -, active₁, active₂⟩ := h.current
  simp only [Router.view, active₁, active₂, h.depth]

theorem SameAbove.dispatch (h : SameAbove b r₁ r₂) (step : Step X K) :
    SameAbove b (r₁.dispatch step).2 (r₂.dispatch step).2 := by
  obtain ⟨i, c, above, active₁, active₂⟩ := h.current
  cases busy : c.busy with
  | true =>
    rw [Router.dispatch_of_busy active₁ busy, Router.dispatch_of_busy active₂ busy]
    exact h
  | false =>
    have current₁ := Router.current_dispatch active₁ busy step
    have current₂ := Router.current_dispatch active₂ busy step
    obtain ⟨es₁, after₁⟩ := Router.dispatch_of_free active₁ busy step
    obtain ⟨es₂, after₂⟩ := Router.dispatch_of_free active₂ busy step
    rw [after₁] at current₁ ⊢
    rw [after₂] at current₂ ⊢
    refine ⟨?_, ?_, h.depth, ⟨i, _, above, current₁, current₂⟩, fun j high => ?_⟩
    · simpa using h.base
    · simpa using h.size
    · simp only [Array.getElem?_setIfInBounds, h.size, h.cells j high]

/-- Entering the same inference puts the same strategy on top, whatever is below. -/
theorem sameAbove_enter (base : b ≤ r₁.cells.size) (size : r₁.cells.size = r₂.cells.size)
    (depth : r₁.depth = r₂.depth) (cells : ∀ i, b ≤ i → r₁.cells[i]? = r₂.cells[i]?) (s : S K) :
    SameAbove b (r₁.enter s).2 (r₂.enter s).2 where
  base := by simpa using Nat.le_succ_of_le base
  size := by simpa using size
  depth := by simpa using depth
  current := ⟨_, _, base, Router.enter_current s r₁, by rw [Router.enter_current, size]⟩
  cells i high := by
    simp only [Router.enter_cells, Array.getElem?_push, size, cells i high]

/-- No run tells such routers apart. -/
theorem simulation_sameAbove (b : Nat) : Simulation Eq (SameAbove (X := X) (S := S) (K := K) b) where
  refl _ := rfl
  name same := by rw [same]
  start same := by rw [same]
  finish same := by rw [same]; exact ⟨rfl, rfl⟩
  events es₁ es₂ h := ⟨h.base, h.size, h.depth, h.current, h.cells⟩
  shown h := by rw [h.view_eq]
  dispatch step h := ⟨(h.aligned.dispatch step).1, h.dispatch step⟩
  enter s h := sameAbove_enter h.base h.size h.depth h.cells s
  asked h same active₁ active₂ := by rw [same]; exact h.aligned.strategyAt_eq active₁ active₂ _

end SameAbove

end Run

/-! ### Two handlers that sample -/

/-- A router at which a sampler of the given source has been installed. -/
def Router.withSampler [Handler X S] (source : Source) (r : Router X S K) : Router X S K :=
  let (i, r) := r.add (.sampler ⟨source⟩)
  (r.install i).2

/-- The source that a handler samples choices from. -/
def Installed.source? : Installed X (Strategies X T) K → Option Source
  | sampler h => some h.source
  | strategy { core := .sampling h, .. } => some h.source
  | strategy _ => none

/-- The source that choices are sampled from. -/
def Router.sampledFrom? (r : Router X (Strategies X T) K) : Option Source :=
  match r.current with
  | none => some r.source
  | some (_, c) => c.handler.source?

/-- How forward sampling turns down a constraint. -/
def ForwardSampling.unweighted [Scalar X] (logWeight : X) : Failure :=
  .unsupportedEffect "forward" .weight
    ("cannot apply weight " ++ Scalar.text logWeight ++ " without normalization")

/-- Sampling a choice goes on with the value that is drawn, or fails as the draw does. -/
theorem ForwardSampling.handle_draw [Scalar X] (h : ForwardSampling X K) (k : K)
    (d : Distribution X) (params : List Value) :
    (h.handle (.draw k d params)).value.1 = (d.sample params h.source).1.map (.resume k) ∧
      (h.handle (.draw k d params)).value.2.source = (d.sample params h.source).2 := by
  unfold handle
  rcases drawn : d.sample params h.source with ⟨e | v, source⟩ <;> simp only [drawn] <;>
    exact ⟨rfl, rfl⟩

/-- The distribution lists the value alone, which has all of the mass. -/
def Distribution.IsPointMass [Scalar X] (d : Distribution X) (v : Value) : Prop :=
  ∀ params, d.support params = .ok [v] ∧
    ∀ u, d.score params u = .ok (if u == v then Scalar.zero else Scalar.negInf)

theorem Distribution.isPointMass_delta_iff [Scalar X] {v u : Value} :
    (Distribution.delta v : Distribution X).IsPointMass u ↔ v = u := by
  constructor
  · intro h
    have listed : Except.ok [v] = (.ok [u] : Result (List Value)) := (h []).1
    simpa using listed
  · rintro rfl
    exact fun params => ⟨rfl, fun u => rfl⟩

namespace Run

variable [Scalar X]

/-- The answers of forward sampling and of a sampler to an effect. -/
inductive Counterpart : Step X K → Result (Resumption K) → Result (Resumption K) → Prop where
  | draw (k : K) (d : Distribution X) (params : List Value) (answer : Result (Resumption K)) :
    Counterpart (.draw k d params) answer answer
  | weight (k : K) (l : X) :
    Counterpart (.weight k l) (.error (ForwardSampling.unweighted l)) (.error .noActiveInference)
  | exit (v : Value) : Counterpart (.exit v) (.ok (.halt none)) (.ok (.halt (some v)))

/-- The ends of two runs with the given effects: both succeed, or both fail, in the same way unless
it is a constraint that ends them. -/
inductive SameEnd {α β : Type} (steps : List (Step X K)) (success : α → β → Prop) :
    Result α → Result β → Prop where
  | ok {x : α} {y : β} : success x y → SameEnd steps success (.ok x) (.ok y)
  | weight (before : List (Step X K)) (k : K) (l : X) : steps = before ++ [.weight k l] →
    SameEnd steps success (.error (ForwardSampling.unweighted l)) (.error .noActiveInference)
  | error (e : Failure) : (∀ k l, .weight k l ∉ steps) →
    SameEnd steps success (.error e) (.error e)

theorem SameEnd.cons_draw {α β : Type} {steps : List (Step X K)} {success : α → β → Prop}
    {x : Result α} {y : Result β} (h : SameEnd steps success x y) (k : K) (d : Distribution X)
    (params : List Value) : SameEnd (.draw k d params :: steps) success x y := by
  cases h with
  | ok h => exact .ok h
  | weight before k' l last =>
    rw [last]
    exact .weight (.draw k d params :: before) k' l rfl
  | error e absent =>
    refine .error e fun k' l found => ?_
    rcases List.mem_cons.1 found with same | found
    · cases same
    · exact absent k' l found

variable [Strategy X T]

/-- Moments at which the same use is made of two routers, choices are sampled from the same source,
and an effect gets the same answer. -/
structure Moment.Same (m₁ m₂ : Moment X (Strategies X T) K) : Prop where
  level : m₁.level = m₂.level
  use : m₁.use = m₂.use
  source : m₁.router.sampledFrom? = m₂.router.sampledFrom?
  answer : ∀ step, m₁.use = .dispatch step →
    (m₁.router.dispatch step).1 = (m₂.router.dispatch step).1

/-- Corresponding moments of the two runs of a program at a level. Inside the inferences that the
program makes the answers are the same. -/
structure Twin (n : Nat) (m₁ m₂ : Moment X (Strategies X T) K) : Prop where
  level : m₁.level = m₂.level
  use : m₁.use = m₂.use
  source : m₁.router.sampledFrom? = m₂.router.sampledFrom?
  own : ∀ step, m₁.use = .dispatch step → m₁.level = n →
    Counterpart step (m₁.router.dispatch step).1 (m₂.router.dispatch step).1
  inner : ∀ step, m₁.use = .dispatch step → m₁.level ≠ n →
    (m₁.router.dispatch step).1 = (m₂.router.dispatch step).1

theorem Moment.Same.twin {n : Nat} {m₁ m₂ : Moment X (Strategies X T) K} (h : m₁.Same m₂)
    (deeper : ∀ step, m₁.use = .dispatch step → m₁.level ≠ n) : Twin n m₁ m₂ where
  level := h.level
  use := h.use
  source := h.source
  own step forwards own := absurd own (deeper step forwards)
  inner step forwards _ := h.answer step forwards

theorem Moment.Rel.same {b : Nat} {m₁ m₂ : Moment X (Strategies X T) K}
    (h : m₁.Rel Eq (SameAbove b) m₂) : m₁.Same m₂ where
  level := h.level
  use := by
    rcases m₁ with ⟨_, _, use₁⟩
    rcases m₂ with ⟨_, _, use₂⟩
    cases h.use with
    | dispatch | view => rfl
    | finish asked => rw [asked]
  source := by
    obtain ⟨j, c, -, active₁, active₂⟩ := h.router.current
    unfold Router.sampledFrom?
    rw [active₁, active₂]
  answer step _ := (h.router.aligned.dispatch step).1

/-- Effects go to forward sampling on the one side and to a sampler on the other, and both are about
to sample from the same source. -/
structure Paired (i : Nat) (h : ForwardSampling X K) (r₁ r₂ : Router X (Strategies X T) K) :
    Prop where
  size : r₁.cells.size = r₂.cells.size
  depth : r₁.depth = r₂.depth
  sampling : r₁.current = some (i, { handler := .strategy { core := .sampling h } })
  sampler : r₂.current = some (i, { handler := .sampler ⟨h.source⟩ })

namespace Paired

variable {i n : Nat} {h : ForwardSampling X K} {r₁ r₂ : Router X (Strategies X T) K}

omit [Scalar X] [Strategy X T] in
theorem events (paired : Paired i h r₁ r₂) (es₁ es₂ : Array (Event X)) :
    Paired i h { r₁ with events := es₁ } { r₂ with events := es₂ } :=
  ⟨paired.size, paired.depth, paired.sampling, paired.sampler⟩

omit [Scalar X] [Strategy X T] in
theorem report (paired : Paired i h r₁ r₂) (e₁ e₂ : Event X) :
    Paired i h (r₁.report e₁) (r₂.report e₂) :=
  paired.events _ _

omit [Scalar X] [Strategy X T] in
theorem sampledFrom?_eq (paired : Paired i h r₁ r₂) :
    r₁.sampledFrom? = some h.source ∧ r₂.sampledFrom? = some h.source := by
  unfold Router.sampledFrom?
  rw [paired.sampling, paired.sampler]
  exact ⟨rfl, rfl⟩

/-- Both handlers turn an effect down, end the run or draw the same value, and then they sample from
the same source again. -/
theorem dispatch (paired : Paired i h r₁ r₂) (step : Step X K) :
    (r₁.dispatch step).1 = (h.handle step).value.1 ∧
      Counterpart step (r₁.dispatch step).1 (r₂.dispatch step).1 ∧
      Paired i (h.handle step).value.2 (r₁.dispatch step).2 (r₂.dispatch step).2 := by
  obtain ⟨es₁, after₁⟩ := Router.dispatch_of_free paired.sampling rfl step
  obtain ⟨es₂, after₂⟩ := Router.dispatch_of_free paired.sampler rfl step
  have frame₁ := Router.Frame.dispatch r₁ step
  have frame₂ := Router.Frame.dispatch r₂ step
  have answer₁ : (r₁.dispatch step).1 = (h.handle step).value.1 := by rw [after₁]; rfl
  have answer₂ : (r₂.dispatch step).1 = (Sampler.handle step ⟨h.source⟩).1 := by rw [after₂]; rfl
  have alike : Counterpart step (h.handle step).value.1 (Sampler.handle step ⟨h.source⟩).1 ∧
      (h.handle step).value.2.source = (Sampler.handle step ⟨h.source⟩).2.source := by
    cases step with
    | draw k d params =>
      obtain ⟨answer, source⟩ := h.handle_draw k d params
      rw [answer, source]
      exact ⟨.draw .., rfl⟩
    | weight k l => exact ⟨.weight k l, rfl⟩
    | exit v => exact ⟨.exit v, rfl⟩
  refine ⟨answer₁, ?_, ?_, ?_, Router.current_dispatch paired.sampling rfl step, ?_⟩
  · rw [answer₁, answer₂]
    exact alike.1
  · rw [frame₁.size, frame₂.size, paired.size]
  · rw [frame₁.depth, frame₂.depth, paired.depth]
  · rw [alike.2]
    exact Router.current_dispatch paired.sampler rfl step

theorem twin_dispatch (paired : Paired i h r₁ r₂) (n : Nat) (step : Step X K) :
    Twin n ⟨n, r₁, .dispatch step⟩ ⟨n, r₂, .dispatch step⟩ where
  level := rfl
  use := rfl
  source := by rw [paired.sampledFrom?_eq.1, paired.sampledFrom?_eq.2]
  own step' same _ := by
    cases same
    exact (paired.dispatch step).2.1
  inner _ _ other := absurd rfl other

variable [Resumable X (Strategies X T) K]

/-- An inference inside the program gives the same result on both sides, and comes across the same.
Its effects go to strategies above the two handlers. -/
theorem infer (paired : Paired i h r₁ r₂) (fuel n : Nat) (s : Strategies X T K)
    (a : Action X (Strategies X T) K) :
    SameResult Eq (Run.infer fuel s a r₁) (Run.infer fuel s a r₂) ∧
      List.Forall₂ (Twin n) (inferMoments fuel n s a r₁) (inferMoments fuel n s a r₂) := by
  cases fuel with
  | zero =>
    rw [Run.infer, Run.infer, inferMoments, inferMoments]
    exact ⟨.inl ⟨rfl, rfl⟩, .nil⟩
  | succ fuel =>
    have simulation := simulation_sameAbove (X := X) (S := Strategies X T) (K := K) r₁.cells.size
    -- The cell that the inference adds is the only one from there on.
    have entered : SameAbove r₁.cells.size (r₁.enter s).2 (r₂.enter s).2 := by
      refine sameAbove_enter (Nat.le_refl _) paired.size paired.depth (fun j high => ?_) s
      rw [Array.getElem?_eq_none high, Array.getElem?_eq_none (paired.size ▸ high)]
    obtain ⟨program, moments⟩ := (alike_of_simulation simulation fuel).complete (n := n + 1) (a := a)
      entered (covert_of_view SameAbove.view_eq _)
    obtain ⟨result, same⟩ := simulation.infer rfl program moments Moment.Rel.same
      (fun es₁ es₂ t _ asked => ⟨rfl, by rw [asked], (paired.events es₁ es₂).sampledFrom?_eq.1.trans
        (paired.events es₁ es₂).sampledFrom?_eq.2.symm, fun step other => by cases other⟩)
    have deeper : ∀ m ∈ inferMoments (fuel + 1) n s a r₁, ∀ step, m.use = .dispatch step →
        m.level ≠ n := by
      intro m hm step forwards
      rcases inside_of_mem_inferMoments hm with ⟨j, level, above⟩ | ⟨t, es, rfl⟩
      · have pos := above.pos
        omega
      · cases forwards
    exact ⟨result, ((List.forall₂_and_left _ _).2 ⟨deeper, same⟩).imp
      fun m₁ m₂ both => both.2.twin both.1⟩

end Paired

/-! ### In lockstep -/

/-- Neither run gives an outcome, or both end in the same way and sample from the same source. -/
def SameOutcome (i : Nat) (steps : List (Step X K))
    (o₁ o₂ : Option (Result (Option Value) × Router X (Strategies X T) K)) : Prop :=
  (o₁ = none ∧ o₂ = none) ∨ ∃ h x₁ r₁ x₂ r₂, o₁ = some (x₁, r₁) ∧ o₂ = some (x₂, r₂) ∧
    Paired i h r₁ r₂ ∧
    SameEnd steps (fun kept given => kept = none ∧ given = h.result ∧ h.result.isSome) x₁ x₂

omit [Strategy X T] in
theorem SameOutcome.cons_draw {i : Nat} {steps : List (Step X K)}
    {o₁ o₂ : Option (Result (Option Value) × Router X (Strategies X T) K)}
    (same : SameOutcome i steps o₁ o₂) (k : K) (d : Distribution X) (params : List Value) :
    SameOutcome i (.draw k d params :: steps) o₁ o₂ := by
  rcases same with none | ⟨h, x₁, r₁, x₂, r₂, run₁, run₂, paired, ends⟩
  · exact .inl none
  · exact .inr ⟨h, x₁, r₁, x₂, r₂, run₁, run₂, paired, ends.cons_draw k d params⟩

variable [Resumable X (Strategies X T) K] {P : K → Prop} {i : Nat} {h : ForwardSampling X K}
  {r₁ r₂ : Router X (Strategies X T) K}

/-- What comes before the next effect goes alike, with failures. -/
theorem paired_advance (closed : Closed X (Strategies X T) P) (fuel n : Nat)
    {a : Action X (Strategies X T) K} (within : a.Within P) (paired : Paired i h r₁ r₂) :
    Agree (Paired i h) (advance fuel a r₁) (advance fuel a r₂) ∧
      List.Forall₂ (Twin n) (advanceMoments fuel n a r₁) (advanceMoments fuel n a r₂) := by
  induction fuel generalizing a r₁ r₂ with
  | zero =>
    rw [advance, advance, advanceMoments, advanceMoments]
    exact ⟨.none, .nil⟩
  | succ fuel ih =>
    cases a with
    | perform step | fail e =>
      rw [advance, advance, advanceMoments, advanceMoments]
      exact ⟨.some _ paired, .nil⟩
    | display v k =>
      rw [advance, advance, advanceMoments, advanceMoments]
      exact ih (closed k _ within) (paired.events _ _)
    | infer s p next =>
      rw [advance, advance, advanceMoments, advanceMoments]
      obtain ⟨result, inner⟩ := paired.infer fuel n s (.start p)
      rcases result with ⟨run₁, run₂⟩ | ⟨d, s₁, q₁, s₂, q₂, run₁, run₂, -⟩
      · rw [run₁, run₂]
        exact ⟨.none, List.rel_append inner .nil⟩
      · obtain ⟨es₁, after₁⟩ := infer_router run₁
        obtain ⟨es₂, after₂⟩ := infer_router run₂
        -- The inference gives back both routers, and the handlers are where they were.
        have restored : Paired i h q₁ q₂ := by
          rw [show q₁ = _ from after₁, show q₂ = _ from after₂]
          exact paired.events es₁ es₂
        rw [run₁, run₂]
        obtain ⟨agree, moments⟩ := ih (closed _ _ (within d)) restored
        exact ⟨agree, List.rel_append inner moments⟩
    | probe | run | drive | dispatch => exact within.elim

/-- A computation and all that it leads to goes alike if the effects that it leads to do. -/
theorem paired_goOn (closed : Closed X (Strategies X T) P) (fuel : Nat) {more n j : Nat}
    {a : Action X (Strategies X T) K} (within : a.Within P) (paired : Paired i h r₁ r₂)
    (effects : ∀ {step : Step X K} {q₁ q₂ : Router X (Strategies X T) K}, step.Within P →
      Paired i h q₁ q₂ →
      SameOutcome i (ownSteps n (driveMoments more n j step q₁)) (drive more j step q₁)
          (drive more j step q₂) ∧
        List.Forall₂ (Twin n) (driveMoments more n j step q₁) (driveMoments more n j step q₂)) :
    SameOutcome i (ownSteps n (goOnMoments fuel more n j a r₁)) (goOn fuel more j a r₁)
        (goOn fuel more j a r₂) ∧
      List.Forall₂ (Twin n) (goOnMoments fuel more n j a r₁) (goOnMoments fuel more n j a r₂) := by
  obtain ⟨agree, moments⟩ := paired_advance closed fuel n within paired
  unfold goOn goOnMoments
  rw [ownSteps_append, ownSteps_advanceMoments closed.deferring n within.defers, List.nil_append]
  rcases agree with ⟨run₁, run₂⟩ | ⟨x, q₁, q₂, run₁, run₂, reached⟩
  · rw [run₁, run₂]
    exact ⟨.inl ⟨rfl, rfl⟩, List.rel_append moments .nil⟩
  · rw [run₁, run₂]
    cases x with
    | error e =>
      exact ⟨.inr ⟨_, _, _, _, _, rfl, rfl, reached, .error e (by simp)⟩,
        List.rel_append moments .nil⟩
    | ok step =>
      obtain ⟨outcome, rest⟩ := effects (within_of_advance closed.deferring within.defers run₁) reached
      exact ⟨outcome, List.rel_append moments rest⟩

/-- An effect and all that it leads to goes alike. -/
theorem paired_drive (closed : Closed X (Strategies X T) P) (fuel n : Nat) {j : Nat}
    {step : Step X K}
    (within : step.Within P) (paired : Paired i h r₁ r₂) :
    SameOutcome i (ownSteps n (driveMoments fuel n j step r₁)) (drive fuel j step r₁)
        (drive fuel j step r₂) ∧
      List.Forall₂ (Twin n) (driveMoments fuel n j step r₁) (driveMoments fuel n j step r₂) := by
  induction fuel generalizing j step h r₁ r₂ with
  | zero =>
    rw [drive, drive, driveMoments, driveMoments]
    exact ⟨.inl ⟨rfl, rfl⟩, .nil⟩
  | succ fuel ih =>
    have first := paired.twin_dispatch n step
    -- The cases are the ways in which the two answers correspond.
    obtain ⟨answer, alike, after⟩ := paired.dispatch step
    generalize answered₁ : (r₁.dispatch step).1 = x₁ at answer alike
    generalize answered₂ : (r₂.dispatch step).1 = x₂ at alike
    cases alike with
    | weight k l =>
      rw [drive_of_error answered₁, drive_of_error answered₂,
        driveMoments_of_not_resume (by simp [answered₁]),
        driveMoments_of_not_resume (by simp [answered₂]), ownSteps_dispatch]
      exact ⟨.inr ⟨_, _, _, _, _, rfl, rfl, after, .weight [] k l rfl⟩, .cons first .nil⟩
    | exit v =>
      rw [drive_of_halt answered₁, drive_of_halt answered₂,
        driveMoments_of_not_resume (by simp [answered₁]),
        driveMoments_of_not_resume (by simp [answered₂])]
      exact ⟨.inr ⟨_, _, _, _, _, rfl, rfl, after.events _ _, .ok ⟨rfl, rfl, rfl⟩⟩,
        .cons first .nil⟩
    | draw k d params =>
      rw [(h.handle_draw k d params).1] at answer
      rcases drawn : (d.sample params h.source).1 with e | v
      all_goals rw [drawn] at answer
      · obtain rfl : x₁ = .error e := answer
        rw [drive_of_error answered₁, drive_of_error answered₂,
          driveMoments_of_not_resume (by simp [answered₁]),
          driveMoments_of_not_resume (by simp [answered₂]), ownSteps_dispatch]
        exact ⟨.inr ⟨_, _, _, _, _, rfl, rfl, after, .error e (by simp)⟩, .cons first .nil⟩
      · obtain rfl : x₁ = .ok (.resume k v) := answer
        -- Both have drawn the same value, so both go on with the same computation.
        have resumed := paired_goOn (n := n) (j := j + 1) closed fuel (closed k v within)
          (after.report (.resumed v) (.resumed v)) ih
        rw [drive_of_resume answered₁, drive_of_resume answered₂, driveMoments_of_resume answered₁,
          driveMoments_of_resume answered₂, ownSteps_dispatch]
        exact ⟨resumed.1.cons_draw k d params, .cons first resumed.2⟩

/-- A program goes alike under both handlers. -/
theorem paired_complete (closed : Closed X (Strategies X T) P) (fuel n : Nat)
    {a : Action X (Strategies X T) K} (within : a.Within P) (paired : Paired i h r₁ r₂) :
    SameOutcome i (ownSteps n (completeMoments fuel n a r₁)) (complete fuel a r₁)
        (complete fuel a r₂) ∧
      List.Forall₂ (Twin n) (completeMoments fuel n a r₁) (completeMoments fuel n a r₂) := by
  cases fuel with
  | zero =>
    rw [complete, complete, completeMoments, completeMoments]
    exact ⟨.inl ⟨rfl, rfl⟩, .nil⟩
  | succ fuel =>
    rw [complete_succ, complete_succ, completeMoments_succ, completeMoments_succ]
    exact paired_goOn closed fuel within paired (paired_drive closed fuel n)

/-! ### Forward sampling and the default handler -/

omit [Resumable X (Strategies X T) K] in
/-- Both handlers start to sample from the given source. -/
theorem paired_enter (h : ForwardSampling X K) (r : Router X (Strategies X T) K) :
    Paired r.cells.size { h with result := none, draws := 0 }
      (r.enter ({ core := .sampling h } : Strategies X T K)).2 (r.withSampler h.source) where
  size := by simp [Router.withSampler, Router.add, Router.install, Router.report]
  depth := rfl
  sampling := Router.enter_current ({ core := .sampling h } : Strategies X T K) r
  sampler := by
    rw [Router.current_eq_some_iff]
    exact ⟨rfl, Array.getElem?_push_size⟩

omit [Resumable X (Strategies X T) K] in
/-- Forward sampling that has kept a value makes a point mass of it. -/
theorem conclude_sampling {v : Value} (kept : h.result = some v) (name : String)
    (r : Router X (Strategies X T) K) :
    ∃ q, conclude name (⟨[], .sampling h⟩ : Strategies X T K) (.ok none) r =
      (.ok (.delta v), ⟨[], .sampling { h with result := none }⟩, q) := by
  have finished : h.finish = (.ok (.delta v), { h with result := none }) := by
    simp [ForwardSampling.finish, kept]
  have asked : ∃ q, conclude name (⟨[], .sampling h⟩ : Strategies X T K) (.ok none) r =
      (h.finish.1, ⟨[], .sampling h.finish.2⟩, q) := ⟨_, rfl⟩
  rwa [finished] at asked

/-- Forward sampling and a run with a sampler give no answer, or they end in the same way, with the
point mass at the value of the run if there is one, and have left the same source. -/
def SampledAlike (steps : List (Step X K))
    (o₁ : Option (Result (Distribution X) × Strategies X T K × Router X (Strategies X T) K))
    (o₂ : Option (Result Value × Router X (Strategies X T) K)) : Prop :=
  (o₁ = none ∧ o₂ = none) ∨ ∃ x₁ h q₁ x₂ q₂, o₁ = some (x₁, ⟨[], .sampling h⟩, q₁) ∧
    o₂ = some (x₂, q₂) ∧ q₂.sampledFrom? = some h.source ∧
    SameEnd steps (fun d v => d = .delta v) x₁ x₂

omit [Strategy X T] [Resumable X (Strategies X T) K] in
/-- The one gives a point mass if and only if the other gives the value. -/
theorem SampledAlike.isPointMass_iff {steps : List (Step X K)}
    {o₁ : Option (Result (Distribution X) × Strategies X T K × Router X (Strategies X T) K)}
    {o₂ : Option (Result Value × Router X (Strategies X T) K)} (alike : SampledAlike steps o₁ o₂)
    (v : Value) :
    (∃ d s q, o₁ = some (.ok d, s, q) ∧ d.IsPointMass v) ↔ ∃ q, o₂ = some (.ok v, q) := by
  rcases alike with ⟨rfl, rfl⟩ | ⟨x₁, h, q₁, x₂, q₂, rfl, rfl, -, ends⟩
  · simp
  · cases ends with
    | @ok _ u value =>
      subst value
      constructor
      · rintro ⟨d, s, q, same, mass⟩
        cases same
        rw [Distribution.isPointMass_delta_iff] at mass
        exact ⟨q₂, by rw [mass]⟩
      · rintro ⟨q, same⟩
        cases same
        exact ⟨_, _, _, rfl, Distribution.isPointMass_delta_iff.2 rfl⟩
    | weight | error => simp

/-- Both end in the same way when their programs do. -/
theorem SameOutcome.sampledAlike {fuel : Nat} {a : Action X (Strategies X T) K}
    {r : Router X (Strategies X T) K} {steps : List (Step X K)}
    (same : SameOutcome r.cells.size steps
      (complete fuel a (r.enter (⟨[], .sampling h⟩ : Strategies X T K)).2)
      (complete fuel a (r.withSampler h.source))) :
    SampledAlike steps (infer (fuel + 1) ⟨[], .sampling h⟩ a r)
      (run fuel a (r.withSampler h.source)) := by
  rw [infer_succ, run]
  rcases same with ⟨run₁, run₂⟩ | ⟨h', x₁, q₁, x₂, q₂, run₁, run₂, paired, ends⟩
  · rw [run₁, run₂]
    exact .inl ⟨rfl, rfl⟩
  · -- The strategy that is asked for the result is the one that the effects went to.
    have asked := fun d => strategyAt_of_serves (d := d) paired.sampling
    rw [run₁, run₂]
    simp only [asked]
    refine .inr ?_
    have source := paired.sampledFrom?_eq.2
    cases ends with
    | ok value =>
      obtain ⟨rfl, rfl, some⟩ := value
      obtain ⟨v, kept⟩ := Option.isSome_iff_exists.1 some
      obtain ⟨q, concluded⟩ := conclude_sampling kept
        (Handler.name (Strategy.start (⟨[], .sampling h⟩ : Strategies X T K)).value)
        (q₁.leave (r.enter (⟨[], .sampling h⟩ : Strategies X T K)).1)
      rw [concluded, kept]
      exact ⟨_, _, q, _, q₂, rfl, rfl, source, .ok rfl⟩
    | weight before k l last => exact ⟨_, h', _, _, q₂, rfl, rfl, source, .weight before k l last⟩
    | error e absent => exact ⟨_, h', _, _, q₂, rfl, rfl, source, .error e absent⟩

/-- Forward sampling and the default handler agree. For a program that leaves the router alone and
any source, either neither gives an answer or both do, and then they have drawn from the source
alike. They come across the same effects, each about to sample from the same source, and get the
same answers, but for how they turn down a constraint and for the value at the end; so one of them
fails when the other does, and where it does, with the same failure unless it is a constraint that
fails. Forward sampling gives the point mass at the value that the default handler gives. -/
theorem infer_sampling_iff_run {a : Action X (Strategies X T) K} (plain : a.Plain) (fuel : Nat)
    (h : ForwardSampling X K) (r : Router X (Strategies X T) K) :
    List.Forall₂ (Twin 1)
      ((inferMoments (fuel + 1) 0 ⟨[], .sampling h⟩ a r).filter fun m => m.level ≠ 0)
      (completeMoments fuel 1 a (r.withSampler h.source)) ∧
    SampledAlike (ownSteps 1 (inferMoments (fuel + 1) 0 ⟨[], .sampling h⟩ a r))
      (infer (fuel + 1) ⟨[], .sampling h⟩ a r) (run fuel a (r.withSampler h.source)) ∧
    ∀ v, (∃ d s q, infer (fuel + 1) ⟨[], .sampling h⟩ a r = some (.ok d, s, q) ∧ d.IsPointMass v) ↔
      ∃ q, run fuel a (r.withSampler h.source) = some (.ok v, q) := by
  obtain ⟨P, within, closed⟩ := plain
  obtain ⟨outcome, moments⟩ :=
    paired_complete closed fuel 1 within (paired_enter h r)
  have alike : SampledAlike (ownSteps 1 (inferMoments (fuel + 1) 0 ⟨[], .sampling h⟩ a r))
      (infer (fuel + 1) ⟨[], .sampling h⟩ a r) (run fuel a (r.withSampler h.source)) := by
    rw [ownSteps_inferMoments_succ]
    exact outcome.sampledAlike
  rw [filter_inferMoments_succ]
  exact ⟨moments, alike, alike.isPointMass_iff⟩

theorem plain_nest (k : Nest) :
    (.start k : Action Float (Strategies Float (NoOther Float)) Nest).Plain := by
  have within : ∀ k v, (Resumable.resume k v :
      Action Float (Strategies Float (NoOther Float)) Nest).Within fun _ => True := by
    intro k v
    cases k <;> first | trivial | exact fun _ => trivial
  exact ⟨fun _ => True, within k .unit, fun k v _ => within k v⟩

/-- Under both handlers the outer program ends with the failure of the one inside, and the program
inside fails on its own. -/
theorem infer_sampling_iff_run_nest :
    (∃ d s q, infer 20 ⟨[], .sampling { source := .ofWords #[] }⟩ (.start .outer) Nest.router =
        some (.ok d, s, q) ∧ d.IsPointMass (.bool true)) ∧
      ∃ e s q, infer 20 ⟨[], .sampling { source := .ofWords #[] }⟩ (.start .inner) Nest.router =
        some (.error e, s, q) := by
  have outer := infer_sampling_iff_run (plain_nest .outer) 19 { source := .ofWords #[] } Nest.router
  have inner := infer_sampling_iff_run (plain_nest .inner) 19 { source := .ofWords #[] } Nest.router
  refine ⟨(outer.2.2 _).2 ⟨_, rfl⟩, ?_⟩
  have failed : ∃ q, run 19 (.start .inner) (Nest.router.withSampler (.ofWords #[])) =
      some (.error .noActiveInference, q) := ⟨_, rfl⟩
  obtain ⟨q, failed⟩ := failed
  rcases inner.2.1 with ⟨-, none⟩ | ⟨x₁, h, q₁, x₂, q₂, inferred, run, -, ends⟩
  · simp [failed] at none
  · cases failed.symm.trans run
    cases ends with
    | weight | error => exact ⟨_, _, _, inferred⟩

end Run

end Posterior
