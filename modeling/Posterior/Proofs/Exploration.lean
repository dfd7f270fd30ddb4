import Posterior.Proofs.Moments
import Posterior.Proofs.Tree

/-!
# Enumeration explores depth first

Enumeration keeps the paths that wait on a stack and is told about one effect at a time. On the tree
of a program it does what recursion does: it comes across the same effects in the same order, on
paths with the same scores, and hands the same marginal on. The invariant that carries this through
a run says what happens to the paths that wait: whatever has been added to the marginal meanwhile,
taking the next of them leads to the exploration that is still due.

## Main definitions

* `Run.goOn` — a computation and all that it leads to, in the middle of a run
* `Enumeration.Explores` — what a run makes of a computation when the search is in a given state
* `Enumeration.Pops` — what a run makes of the paths that wait

## Main results

* `Enumeration.explores_of_unfolds` — the exploration of a tree, with any paths waiting
* `Run.infer_explores` — enumeration of a program is depth-first search on its tree
-/

namespace Posterior

variable {X : Type} {T : Type → Type} {K : Type} [Scalar X] [Strategy X T]

/-! ### The search behind the router -/

/-- The search that a strategy is, if it is enumeration. -/
def Strategies.search? (s : Strategies X T K) : Option (Enumeration X K) :=
  match s.core with
  | .enumeration e => some e
  | _ => none

/-- The search that effects go to. -/
def Router.search? (r : Router X (Strategies X T) K) : Option (Enumeration X K) :=
  match r.current with
  | some (_, { handler := .strategy s, .. }) => s.search?
  | _ => none

/-- What a search is asked at a moment: about an effect, in the state in which the effect finds the
search, or for the distribution of its marginal. -/
def Run.Moment.seen? (m : Run.Moment X (Strategies X T) K) : Option (Visit X ⊕ Marginal X) :=
  match m.use with
  | .dispatch step => m.router.search?.map fun e => .inl ⟨step.forget, e.score, e.pending.length⟩
  | .finish s => s.search?.map fun e => .inr e.marginal
  | .view => none

/-- Effects go to a search, which is in the given state. -/
def Router.Holds (r : Router X (Strategies X T) K) (e : Enumeration X K) : Prop :=
  ∃ i, r.current = some (i, { handler := .strategy { core := .enumeration e } })

namespace Router

variable {r : Router X (Strategies X T) K} {e : Enumeration X K}

omit [Scalar X] [Strategy X T] in
theorem Holds.search?_eq (h : r.Holds e) : r.search? = some e := by
  obtain ⟨i, active⟩ := h
  unfold search?
  rw [active]
  rfl

/-- An effect is answered by the search and changes its state. -/
theorem Holds.dispatch (h : r.Holds e) (step : Step X K) :
    (r.dispatch step).1 = (e.handle step).value.1 ∧
      (r.dispatch step).2.Holds (e.handle step).value.2 := by
  obtain ⟨i, active⟩ := h
  obtain ⟨es, after⟩ := dispatch_of_free active rfl step
  exact ⟨by rw [after]; rfl, i, current_dispatch active rfl step⟩

theorem holds_enter (r : Router X (Strategies X T) K) (settings : Settings) :
    (r.enter (.enumeration settings)).2.Holds settings.enumeration :=
  ⟨_, enter_current ..⟩

end Router

/-! ### In the middle of a run -/

namespace Run

section

variable {S : Type → Type} {X : Type} [Strategy X S] [Resumable X S K]

/-- A computation, after that many effects, and all that it leads to, up to the halt. The fuel for
the computation and that for what follows are counted apart. -/
def goOn (fuel more n : Nat) (a : Action X S K) (r : Router X S K) :
    Option (Result (Option Value) × Router X S K) :=
  match advance fuel a r with
  | none => none
  | some (.error e, r) => some (.error e, r)
  | some (.ok step, r) => drive more n step r

/-- The moments of a computation and all that it leads to. -/
def goOnMoments (fuel more level n : Nat) (a : Action X S K) (r : Router X S K) :
    List (Moment X S K) :=
  advanceMoments fuel level a r ++
    match advance fuel a r with
    | some (.ok step, r) => driveMoments more level n step r
    | _ => []

section

variable {fuel more level n : Nat} {step : Step X K} {r : Router X S K}

theorem complete_succ (fuel : Nat) (a : Action X S K) (r : Router X S K) :
    complete (fuel + 1) a r = goOn fuel fuel 0 a r := by
  rw [complete, goOn]
  rcases advance fuel a r with _ | ⟨_ | _, q⟩ <;> rfl

theorem completeMoments_succ (fuel level : Nat) (a : Action X S K) (r : Router X S K) :
    completeMoments (fuel + 1) level a r = goOnMoments fuel fuel level 0 a r := by
  rw [completeMoments, goOnMoments]
  rcases advance fuel a r with _ | ⟨_ | _, q⟩ <;> rfl

/-- A run that goes on either fails before its next effect, or drives that. -/
theorem exists_of_goOn {a : Action X S K} {q : Router X S K} {x : Result (Option Value)}
    (run : goOn fuel more n a r = some (x, q)) :
    (∃ e, advance fuel a r = some (.error e, q) ∧ x = .error e) ∨
      ∃ step p, advance fuel a r = some (.ok step, p) ∧ drive more n step p = some (x, q) := by
  unfold goOn at run
  split at run
  · cases run
  · next e p failed =>
    cases run
    exact .inl ⟨e, failed, rfl⟩
  · next step p reached => exact .inr ⟨step, p, reached, run⟩

theorem goOn_fail (e : Failure) : goOn (fuel + 1) more n (.fail e) r = some (.error e, r) := by
  rw [goOn, advance]

theorem goOnMoments_fail (e : Failure) :
    goOnMoments (fuel + 1) more level n (.fail e) r = [] := by
  rw [goOnMoments, advanceMoments, advance, List.nil_append]

theorem goOn_display (v : Value) (k : K) :
    goOn (fuel + 1) more n (.display v k) r =
      goOn fuel more n (.start k) (r.report (.displayed v)) := by
  rw [goOn, goOn, advance]

theorem goOnMoments_display (v : Value) (k : K) :
    goOnMoments (fuel + 1) more level n (.display v k) r =
      goOnMoments fuel more level n (.start k) (r.report (.displayed v)) := by
  rw [goOnMoments, goOnMoments, advanceMoments, advance]

theorem goOn_perform (step : Step X K) :
    goOn (fuel + 1) more n (.perform step) r = drive more n step r := by
  rw [goOn, advance]

theorem goOnMoments_perform (step : Step X K) :
    goOnMoments (fuel + 1) more level n (.perform step) r = driveMoments more level n step r := by
  rw [goOnMoments, advanceMoments, advance, List.nil_append]

/-- When an effect is answered with a continuation, the run goes on with that. -/
theorem drive_of_resume {k : K} {v : Value} (answer : (r.dispatch step).1 = .ok (.resume k v)) :
    drive (fuel + 1) n step r =
      goOn fuel fuel (n + 1) (Resumable.resume k v) ((r.dispatch step).2.report (.resumed v)) := by
  rw [drive, goOn]
  rcases dispatched : r.dispatch step with ⟨x, q⟩
  rw [dispatched] at answer
  obtain rfl : x = .ok (.resume k v) := answer
  simp only
  rcases advance fuel (Resumable.resume k v) (q.report (.resumed v)) with _ | ⟨_ | _, p⟩ <;> rfl

theorem driveMoments_of_resume {k : K} {v : Value}
    (answer : (r.dispatch step).1 = .ok (.resume k v)) :
    driveMoments (fuel + 1) level n step r =
      ⟨level, r, .dispatch step⟩ :: goOnMoments fuel fuel level (n + 1) (Resumable.resume k v)
        ((r.dispatch step).2.report (.resumed v)) := by
  rw [driveMoments, goOnMoments]
  rcases dispatched : r.dispatch step with ⟨x, q⟩
  rw [dispatched] at answer
  obtain rfl : x = .ok (.resume k v) := answer
  simp only
  rcases advance fuel (Resumable.resume k v) (q.report (.resumed v)) with _ | ⟨_ | _, p⟩ <;> rfl

/-- When an effect is answered with a failure, the run ends with that. -/
theorem drive_of_error {e : Failure} (answer : (r.dispatch step).1 = .error e) :
    drive (fuel + 1) n step r = some (.error e, (r.dispatch step).2) := by
  rw [drive]
  rcases dispatched : r.dispatch step with ⟨x, q⟩
  rw [dispatched] at answer
  obtain rfl : x = .error e := answer
  rfl

/-- When an effect is answered with a halt, the run ends with its value. -/
theorem drive_of_halt {v : Option Value} (answer : (r.dispatch step).1 = .ok (.halt v)) :
    drive (fuel + 1) n step r =
      some (.ok v, (r.dispatch step).2.report (.halted (n + 1))) := by
  rw [drive]
  rcases dispatched : r.dispatch step with ⟨x, q⟩
  rw [dispatched] at answer
  obtain rfl : x = .ok (.halt v) := answer
  rfl

theorem driveMoments_of_not_resume
    (answer : ∀ k v, (r.dispatch step).1 ≠ .ok (.resume k v)) :
    driveMoments (fuel + 1) level n step r = [⟨level, r, .dispatch step⟩] := by
  rw [driveMoments]
  rcases dispatched : r.dispatch step with ⟨e | ⟨k, v⟩ | v, q⟩
  · rfl
  · exact absurd (by rw [dispatched]) (answer k v)
  · rfl

end

end

end Run

namespace Enumeration

variable [Resumable X (Strategies X T) K]

/-- A run that goes on with the computation, when the search is in the given state, ends with the
outcome of the exploration: with the first failure, or with a halt and the marginal in the search.
If the program is alone, so that no other inference is made in between, all uses of the router are
the effects of the exploration. -/
def Explores (T : Type → Type) [Strategy X T] [Resumable X (Strategies X T) K] (alone : Prop)
    (a : Action X (Strategies X T) K) (e : Enumeration X K) (x : Exploration X) : Prop :=
  ∃ enough, ∀ fuel ≥ enough, ∀ more ≥ enough, ∀ n level, ∀ r : Router X (Strategies X T) K,
    r.Holds e →
      (alone → (Run.goOnMoments fuel more level n a r).map Run.Moment.seen? =
        (x.visits.map .inl).map some) ∧
      ∃ outcome r' e', Run.goOn fuel more n a r = some (outcome, r') ∧ r'.Holds e' ∧
        match x.outcome with
        | .error err => outcome = .error err
        | .ok m => outcome = .ok none ∧ e'.marginal = m ∧ e'.pending = []

/-- What a run makes of the paths that wait: the next one is explored with all that it leads to, or
the run halts if there is none. -/
def Pops (T : Type → Type) [Strategy X T] [Resumable X (Strategies X T) K] (alone : Prop)
    (e : Enumeration X K) (x : Exploration X) : Prop :=
  match e.pending with
  | [] => x = .done e.marginal
  | alt :: rest =>
    Explores T alone (Resumable.resume alt.k alt.value)
      { e with score := alt.score, pending := rest } x

/-- An effect as a search in the given state comes across it. -/
def visit (step : Step X K) (e : Enumeration X K) : Visit X :=
  ⟨step.forget, e.score, e.pending.length⟩

section Steps

variable {alone : Prop} {e e' : Enumeration X K} {step : Step X K} {x : Exploration X}

omit [Scalar X] [Strategy X T] [Resumable X (Strategies X T) K] in
theorem seen?_dispatch {level : Nat} {r : Router X (Strategies X T) K} (h : r.Holds e) :
    (⟨level, r, .dispatch step⟩ : Run.Moment X (Strategies X T) K).seen? =
      some (.inl (e.visit step)) := by
  unfold Run.Moment.seen?
  simp only [h.search?_eq]
  rfl

theorem explores_fail (err : Failure) (e : Enumeration X K) :
    Explores T alone (.fail err) e ⟨[], .error err⟩ := by
  refine ⟨1, fun fuel enough more _ n level r holds => ?_⟩
  obtain ⟨fuel, rfl⟩ := Nat.exists_eq_add_of_le' enough
  rw [Run.goOn_fail, Run.goOnMoments_fail]
  exact ⟨fun _ => rfl, .error err, r, e, rfl, holds, rfl⟩

theorem explores_display {k : K} (v : Value) (h : Explores T alone (.start k) e x) :
    Explores T alone (.display v k) e x := by
  obtain ⟨enough, h⟩ := h
  refine ⟨enough + 1, fun fuel hf more hm n level r holds => ?_⟩
  obtain ⟨fuel, rfl⟩ := Nat.exists_eq_add_of_le' (Nat.le_of_add_left_le hf)
  -- Displaying takes fuel from the computation only, which is why the two amounts are kept apart.
  rw [Run.goOn_display, Run.goOnMoments_display]
  exact h fuel (by omega) more (by omega) n level _ holds

/-- An effect that the search answers with a failure ends the run. -/
theorem explores_of_error {err : Failure} (answer : (e.handle step).value.1 = .error err) :
    Explores T alone (.perform step) e ⟨[e.visit step], .error err⟩ := by
  refine ⟨1, fun fuel hf more hm n level r holds => ?_⟩
  obtain ⟨fuel, rfl⟩ := Nat.exists_eq_add_of_le' hf
  obtain ⟨more, rfl⟩ := Nat.exists_eq_add_of_le' hm
  obtain ⟨answered, held⟩ := holds.dispatch step
  rw [answer] at answered
  rw [Run.goOn_perform, Run.goOnMoments_perform, Run.drive_of_error answered,
    Run.driveMoments_of_not_resume (by simp [answered])]
  exact ⟨fun _ => by simp [seen?_dispatch holds], _, _, _, rfl, held, rfl⟩

/-- An effect that the search answers with a halt ends the run. -/
theorem explores_of_halt (answer : (e.handle step).value = (.ok (.halt none), e'))
    (empty : e'.pending = []) :
    Explores T alone (.perform step) e (.after (e.visit step) (.done e'.marginal)) := by
  refine ⟨1, fun fuel hf more hm n level r holds => ?_⟩
  obtain ⟨fuel, rfl⟩ := Nat.exists_eq_add_of_le' hf
  obtain ⟨more, rfl⟩ := Nat.exists_eq_add_of_le' hm
  obtain ⟨answered, held⟩ := holds.dispatch step
  rw [answer] at answered held
  rw [Run.goOn_perform, Run.goOnMoments_perform, Run.drive_of_halt answered,
    Run.driveMoments_of_not_resume (by simp [answered])]
  exact ⟨fun _ => by simp [seen?_dispatch holds, Exploration.after, Exploration.done], _, _, _, rfl,
    held, rfl, rfl, empty⟩

/-- After an effect that the search answers with a continuation the run goes on with that. -/
theorem explores_of_resume {k : K} {v : Value}
    (answer : (e.handle step).value = (.ok (.resume k v), e'))
    (h : Explores T alone (Resumable.resume k v) e' x) :
    Explores T alone (.perform step) e (x.after (e.visit step)) := by
  obtain ⟨enough, h⟩ := h
  refine ⟨enough + 1, fun fuel hf more hm n level r holds => ?_⟩
  obtain ⟨fuel, rfl⟩ := Nat.exists_eq_add_of_le' (Nat.le_of_add_left_le hf)
  obtain ⟨more, rfl⟩ := Nat.exists_eq_add_of_le' (Nat.le_of_add_left_le hm)
  obtain ⟨answered, held⟩ := holds.dispatch step
  rw [answer] at answered held
  rw [Run.goOn_perform, Run.goOnMoments_perform, Run.drive_of_resume answered,
    Run.driveMoments_of_resume answered]
  obtain ⟨visits, rest⟩ := h more (by omega) more (by omega) (n + 1) level
    ((r.dispatch step).2.report (.resumed v)) held
  refine ⟨fun only => ?_, rest⟩
  rw [List.map_cons, visits only, seen?_dispatch holds]
  rfl

/-- After an effect that the search answers by taking the next alternative, the run makes of the
paths that wait what there is to be made of them. -/
theorem explores_of_next {e₁ : Enumeration X K}
    (answer : (e.handle step).value = (.ok e₁.next.value.1, e₁.next.value.2))
    (h : Pops T alone e₁ x) : Explores T alone (.perform step) e (x.after (e.visit step)) := by
  unfold Pops at h
  split at h
  · next empty =>
    -- Nothing waits: the search is done and halts the run.
    subst h
    have halted : (e.handle step).value = (.ok (.halt none), { e₁ with done := true }) := by
      rw [answer, next, empty]
      rfl
    have explored : Explores T alone (.perform step) e _ := explores_of_halt halted empty
    exact explored
  · next alt rest waiting =>
    refine explores_of_resume ?_ h
    rw [answer, next, waiting]
    rfl

end Steps

/-! ### The invariant -/

/-- A run of the computation follows the tree: in any state of the search it explores the tree and
then does what is to be done with the paths that wait, from the marginal that the tree has left. -/
def Follows (T : Type → Type) [Strategy X T] [Resumable X (Strategies X T) K] (alone : Prop)
    (a : Action X (Strategies X T) K) (t : Tree X) : Prop :=
  ∀ (e : Enumeration X K) (rest : Marginal X → Exploration X),
    (∀ e₁ : Enumeration X K, e₁.pending = e.pending → Pops T alone e₁ (rest e₁.marginal)) →
      Explores T alone a e ((t.explore e.score e.pending.length e.marginal).andThen rest)

section Follows

variable {alone : Prop} {k : K} {rest : Marginal X → Exploration X} {p : List (Alternative X K)}

/-- Children that wait on top of other paths are explored one after the other, then the other paths
are. -/
theorem pops_exploreAll {next : Value → Tree X} (cs : List (Value × X))
    (children : ∀ c ∈ cs, Follows T alone (Resumable.resume k c.1) (next c.1))
    (others : ∀ e₁ : Enumeration X K, e₁.pending = p → Pops T alone e₁ (rest e₁.marginal))
    (e : Enumeration X K) (pending : e.pending = cs.map (alternative k) ++ p) :
    Pops T alone e
      ((Tree.exploreAll (fun v => (next v).explore) p.length cs e.marginal).andThen rest) := by
  -- Below the first child the marginal grows, so the state must be free in the hypothesis.
  induction cs generalizing e with
  | nil => exact others e pending
  | cons c cs ih =>
    obtain ⟨v, score⟩ := c
    -- What comes after the subtree of the child are the other children, and then the other paths.
    have below := children (v, score) List.mem_cons_self
      { e with score := score, pending := cs.map (alternative k) ++ p }
      (fun m => (Tree.exploreAll (fun v => (next v).explore) p.length cs m).andThen rest)
      (fun e₁ same => ih (fun c hc => children c (List.mem_cons_of_mem _ hc)) e₁ same)
    unfold Pops
    rw [pending, Tree.exploreAll, Exploration.andThen_assoc]
    simpa [alternative] using below

theorem follows_exit (v : Value) :
    Follows T alone (.perform (.exit v) : Action X (Strategies X T) K) (.exit v) := by
  intro e rest others
  rw [Tree.explore, Exploration.andThen_after, Exploration.done_andThen]
  let e₁ : Enumeration X K :=
    { e with marginal := e.marginal.addLog v e.score, paths := e.paths + 1 }
  have answer : (e.handle (.exit v)).value = (.ok e₁.next.value.1, e₁.next.value.2) := by
    simp [handle, e₁]
  exact explores_of_next answer (others e₁ rfl)

theorem follows_weight {t : Tree X} (l : X) (h : Follows T alone (Resumable.resume k .unit) t) :
    Follows T alone (.weight k l) (.weight l t) := by
  intro e rest others
  rw [Tree.explore, Exploration.andThen_after]
  cases bad : Scalar.isNaN l || Scalar.eq l Scalar.posInf with
  | true => exact explores_of_error (by simp [handle, acceptable, bad])
  | false =>
    have answer : (e.handle (.weight k l)).value =
        (.ok (.resume k .unit), { e with score := e.score + l }) := by
      simp [handle, acceptable, bad]
    exact explores_of_resume answer (h { e with score := e.score + l } rest others)

theorem follows_draw {d : Distribution X} {params : List Value} {next : Value → Tree X}
    (h : ∀ vs, d.support params = .ok vs → ∀ v ∈ vs,
      Follows T alone (Resumable.resume k v) (next v)) :
    Follows T alone (.draw k d params) (.draw d params next) := by
  intro e rest others
  rw [Tree.explore, Exploration.andThen_after]
  cases split : Tree.children d params e.score with
  | error err => exact explores_of_error (by simp [handle, split_eq, split, Except.map])
  | ok cs =>
    have children : ∀ c ∈ cs.reverse, Follows T alone (Resumable.resume k c.1) (next c.1) :=
      fun c hc => h _ (Tree.support_of_children split) c.1
        (List.mem_map_of_mem (List.mem_reverse.1 hc))
    let e₁ : Enumeration X K := {
      e with
      forks := e.forks + 1
      pending := (cs.map (alternative k)).reverse ++ e.pending
      peakPending := Nat.max e.peakPending
        ((cs.map (alternative k)).reverse ++ e.pending).length }
    have answer : (e.handle (.draw k d params)).value = (.ok e₁.next.value.1, e₁.next.value.2) := by
      simp [handle, split_eq, split, Except.map, e₁]
    -- The alternatives wait in reverse order, and the last one is taken first.
    exact explores_of_next answer (pops_exploreAll cs.reverse children others e₁ (by simp [e₁]))

/-- A run follows the tree of the program. -/
theorem follows_of_unfolds {a : Action X (Strategies X T) K} {t : Tree X} (h : a.Unfolds t) :
    Follows T True a t := by
  induction h with
  | exit v => exact follows_exit v
  | weight _ ih => exact follows_weight _ ih
  | draw _ ih => exact follows_draw ih
  | fail err =>
    intro e rest _
    exact explores_fail err e
  | display _ ih =>
    intro e rest others
    exact explores_display _ (ih e rest others)

end Follows

/-- A run that follows a tree from the start explores it, with nothing left to do after it. -/
theorem explores_of_follows {alone : Prop} {a : Action X (Strategies X T) K} {t : Tree X}
    (h : Follows T alone a t) (settings : Settings) :
    Explores T alone a settings.enumeration (t.explore Scalar.zero 0 .empty) := by
  -- No paths wait at the start, so all that is left to do after the tree is to halt.
  have explored := h settings.enumeration .done fun e₁ empty => by
    unfold Pops
    rw [empty]
    rfl
  rwa [Exploration.andThen_done] at explored

/-- A run explores the tree of its program. -/
theorem explores_of_unfolds {a : Action X (Strategies X T) K} {t : Tree X} (h : a.Unfolds t)
    (settings : Settings) :
    Explores T True a settings.enumeration (t.explore Scalar.zero 0 .empty) :=
  explores_of_follows (follows_of_unfolds h) settings

/-- A search with no paths waiting makes a distribution of its marginal. -/
theorem finish_of_empty {e : Enumeration X K} (empty : e.pending = []) :
    e.finish.value.1 = e.marginal.normalized.map Marginal.toDistribution := by
  unfold finish
  rw [empty]
  cases e.marginal.normalized with
  | error err => rfl
  | ok m =>
    simp only [List.isEmpty_nil, if_true]
    split <;> rfl

end Enumeration

/-! ### Inference -/

namespace Run

variable [Resumable X (Strategies X T) K]

omit [Resumable X (Strategies X T) K] in
/-- The strategy that an inference asks for the result is the search as the run has left it. -/
theorem strategyAt_of_holds {r q : Router X (Strategies X T) K} {e : Enumeration X K}
    {s d : Strategies X T K} (frame : (r.enter s).2.Frame q) (held : q.Holds e) :
    strategyAt q r.cells.size d = { core := .enumeration e } := by
  obtain ⟨i, active⟩ := held
  obtain ⟨activeAt, cell⟩ := Router.current_eq_some_iff.1 active
  obtain rfl : r.cells.size = i := by
    rw [frame.active, Router.enter_active] at activeAt
    exact Option.some.inj activeAt
  rw [strategyAt, cell]

omit [Resumable X (Strategies X T) K] in
/-- What an inference by enumeration gives once its program has halted. -/
theorem conclude_of_pending_nil {e : Enumeration X K} (empty : e.pending = []) (name : String)
    (r : Router X (Strategies X T) K) :
    (conclude name ({ core := .enumeration e } : Strategies X T K) (.ok none) r).1 =
      e.marginal.normalized.map Marginal.toDistribution := by
  rw [← Enumeration.finish_of_empty empty]
  rfl

/-- An inference whose run explores what the given exploration says has its result, and if the
program is alone it asks the strategy what the exploration asks. -/
theorem result_of_explores {alone : Prop} {a : Action X (Strategies X T) K} {settings : Settings}
    {x : Exploration X} (h : Enumeration.Explores T alone a settings.enumeration x) :
    ∃ enough, ∀ fuel ≥ enough, ∀ r : Router X (Strategies X T) K,
      (∃ s r', infer fuel (.enumeration settings) a r = some (x.result, s, r')) ∧
      (alone → (inferMoments fuel 0 (.enumeration settings) a r).map Moment.seen? =
        x.trace.map some) := by
  obtain ⟨enough, h⟩ := h
  refine ⟨enough + 2, fun fuel hf r => ?_⟩
  obtain ⟨fuel, rfl⟩ := Nat.exists_eq_add_of_le' (Nat.le_of_add_left_le hf)
  obtain ⟨visits, outcome, q, e, run, held, ended⟩ := h fuel (by omega) fuel (by omega) 0 1 _
    (Router.holds_enter r settings)
  rw [← completeMoments_succ] at visits
  rw [← complete_succ] at run
  -- The program cannot have moved the strategy: the frame says where it still is.
  have asked := fun d => strategyAt_of_holds (d := d) (frame_complete run) held
  have inferred : ∃ s r', infer (fuel + 2) (.enumeration settings) a r =
      some ((conclude "enumerate" { core := .enumeration e } outcome
        (q.leave (r.enter (.enumeration settings)).1)).1, s, r') := by
    rw [infer_succ, run]
    simp only [asked]
    exact ⟨_, _, rfl⟩
  rw [inferMoments, run, Exploration.result, Exploration.trace, List.map_append, List.map_append]
  cases failed : x.outcome with
  | error err =>
    rw [failed] at ended
    subst ended
    refine ⟨inferred, fun only => ?_⟩
    rw [visits only]
    rfl
  | ok m =>
    rw [failed] at ended
    obtain ⟨rfl, rfl, empty⟩ := ended
    rw [conclude_of_pending_nil empty] at inferred
    refine ⟨inferred, fun only => ?_⟩
    rw [visits only]
    simp only [asked]
    rfl

/-- An inference of a program that is alone has the result of the exploration, and asks the strategy
what the exploration asks. -/
theorem infer_of_explores {a : Action X (Strategies X T) K} {settings : Settings}
    {x : Exploration X} (h : Enumeration.Explores T True a settings.enumeration x)
    (r : Router X (Strategies X T) K) :
    ∃ enough, ∀ fuel ≥ enough,
      (∃ s r', infer fuel (.enumeration settings) a r = some (x.result, s, r')) ∧
      (inferMoments fuel 0 (.enumeration settings) a r).map Moment.seen? = x.trace.map some := by
  obtain ⟨enough, run⟩ := result_of_explores h
  exact ⟨enough, fun fuel hf => ⟨(run fuel hf r).1, (run fuel hf r).2 trivial⟩⟩

/-- Inferring a program by enumeration is depth-first search on its tree. With enough fuel the run
ends, with the first failure of the search or with its marginal, normalized and frozen. All that the
run asks of the strategy is what the search comes across: the effects in the same order, on paths
with the same scores and with as many alternatives waiting, and then the distribution of the same
marginal, with its entries in the same order. -/
theorem infer_explores {a : Action X (Strategies X T) K} {t : Tree X} (h : a.Unfolds t)
    (settings : Settings) (r : Router X (Strategies X T) K) :
    ∃ enough, ∀ fuel ≥ enough,
      (∃ s r', infer fuel (.enumeration settings) a r =
        some ((t.explore Scalar.zero 0 .empty).result, s, r')) ∧
      (inferMoments fuel 0 (.enumeration settings) a r).map Moment.seen? =
        (t.explore Scalar.zero 0 .empty).trace.map some := by
  have explored := Enumeration.explores_of_unfolds (T := T) h settings
  exact infer_of_explores explored r

/-- A distribution that lists the given values and scores all of them alike. -/
def flat (vs : List Value) : Distribution Float where
  name := "flat"
  score? := some fun _ _ => .ok (-1)
  support? := some fun _ => .ok vs

/-- A choice between true, which is constrained, and false, which has no values to go on with. -/
def lopsided : Tree Float :=
  .draw (flat [.bool true, .bool false]) [] fun
    | .bool true => .weight (-1) (.exit .unit)
    | _ => .draw (flat []) [] .exit

/-- The search meets false before true, whose path is the only one to end. -/
theorem infer_explores_lopsided :
    (lopsided.explore Scalar.zero 0 .empty).visits.map (fun v => (v.step.effect, v.waiting)) =
        [(.draw, 0), (.draw, 1), (.weight, 0), (.exit, 0)] ∧
      ∃ enough, ∀ fuel ≥ enough,
        (∃ s r', infer fuel (.enumeration {} : Strategies Float (NoOther Float) (Tree.Rest Float))
            lopsided.program { source := .ofWords #[] } =
          some ((lopsided.explore Scalar.zero 0 .empty).result, s, r')) ∧
        (inferMoments fuel 0 (.enumeration {} : Strategies Float (NoOther Float) (Tree.Rest Float))
            lopsided.program { source := .ofWords #[] }).map Moment.seen? =
          (lopsided.explore Scalar.zero 0 .empty).trace.map some :=
  ⟨by decide +kernel, infer_explores lopsided.unfolds_program {} { source := .ofWords #[] }⟩

end Run

end Posterior
