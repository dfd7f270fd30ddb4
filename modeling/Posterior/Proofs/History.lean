import Posterior.Proofs.Isolation

/-!
# The history of a strategy

During an inference nothing but the effects of its program changes its strategy: not the inferences
that the program makes on the way, nor the looks that it takes at the router. The effects that go to
the strategy are those with exactly one inference around them. So the state in which a moment of the
run finds the strategy is what these effects, up to the moment and in order, have made of it.

## Main definitions

* `Run.ownSteps` — the effects at a level
* `Run.told` — what effects make of a strategy
* `Run.Moment.strategy?` — the strategy of the outermost inference at a moment

## Main results

* `Run.strategy?_of_moments` — the strategy at each moment of an inference
* `Run.strategy_of_infer` — the strategy that an inference leaves
-/

namespace Posterior

variable {X : Type} {S : Type → Type} {K : Type}

/-- The strategy in a cell. -/
def Router.strategy? (r : Router X S K) (i : Nat) : Option (S K) :=
  match r.cells[i]? with
  | some ⟨.strategy s, _⟩ => some s
  | _ => none

namespace Run

/-- The effects that are performed inside that many inferences, in order. -/
def ownSteps (n : Nat) (ms : List (Moment X S K)) : List (Step X K) :=
  ms.filterMap fun m => if m.level = n then m.step? else none

@[simp] theorem ownSteps_nil (n : Nat) : ownSteps n ([] : List (Moment X S K)) = [] := rfl

@[simp] theorem ownSteps_append (n : Nat) (ms ms' : List (Moment X S K)) :
    ownSteps n (ms ++ ms') = ownSteps n ms ++ ownSteps n ms' :=
  List.filterMap_append

theorem ownSteps_dispatch (n : Nat) (r : Router X S K) (step : Step X K)
    (ms : List (Moment X S K)) :
    ownSteps n (⟨n, r, .dispatch step⟩ :: ms) = step :: ownSteps n ms := by
  simp [ownSteps, Moment.step?]

theorem ownSteps_view (n : Nat) (r : Router X S K) (ms : List (Moment X S K)) :
    ownSteps n (⟨n, r, .view⟩ :: ms) = ownSteps n ms := by
  simp [ownSteps, Moment.step?]

theorem ownSteps_eq_nil {n : Nat} {ms : List (Moment X S K)}
    (h : ∀ m ∈ ms, m.level = n → m.step? = none) : ownSteps n ms = [] := by
  refine List.filterMap_eq_nil_iff.2 fun m hm => ?_
  split
  · next level => exact h m hm level
  · rfl

variable [Strategy X S]

/-- What effects make of a strategy, one after the other. -/
def told (s : S K) (steps : List (Step X K)) : S K :=
  steps.foldl (fun s step => (Handler.handle (fun _ => pure Router.refusal) step s).value.2) s

@[simp] theorem told_nil (s : S K) : told s [] = s := rfl

theorem told_cons (s : S K) (step : Step X K) (steps : List (Step X K)) :
    told s (step :: steps) =
      told (Handler.handle (fun _ => pure Router.refusal) step s).value.2 steps := rfl

@[simp] theorem told_append (s : S K) (steps steps' : List (Step X K)) :
    told s (steps ++ steps') = told (told s steps) steps' :=
  List.foldl_append

/-! ### Along the moments -/

/-- The moments find the cell as the effects before them, at the given level, have made it. -/
def Traced (n i : Nat) (s : S K) (ms : List (Moment X S K)) : Prop :=
  ∀ before m after, ms = before ++ m :: after →
    m.router.cells[i]? = some { handler := .strategy (told s (ownSteps n before)) }

section Traced

variable {n i : Nat} {s : S K} {m : Moment X S K} {ms ms' : List (Moment X S K)}

theorem traced_nil : Traced n i s ([] : List (Moment X S K)) := by
  intro before m after split
  simp at split

theorem Traced.cons (found : m.router.cells[i]? = some { handler := .strategy s })
    (rest : Traced n i (told s (ownSteps n [m])) ms) : Traced n i s (m :: ms) := by
  intro before m' after split
  cases before with
  | nil =>
    obtain ⟨rfl, rfl⟩ := List.cons.inj split
    exact found
  | cons m₀ before =>
    obtain ⟨rfl, remains⟩ := List.cons.inj split
    have later := rest before m' after remains
    rwa [← told_append, ← ownSteps_append] at later

theorem Traced.append (first : Traced n i s ms) (rest : Traced n i (told s (ownSteps n ms)) ms') :
    Traced n i s (ms ++ ms') := by
  intro before m after split
  rcases List.append_eq_append_iff.1 split with ⟨between, rfl, later⟩ | ⟨between, rfl, later⟩
  · have found := rest between m after later
    rwa [← told_append, ← ownSteps_append] at found
  · cases between with
    | nil =>
      rw [List.append_nil] at rest
      exact rest [] m after later.symm
    | cons m₀ between =>
      obtain ⟨rfl, -⟩ := List.cons.inj later
      exact first before m between rfl

/-- Moments at which the cell stays as it is, since no effect goes to it. -/
theorem traced_of_forall (found : ∀ m ∈ ms, m.router.cells[i]? = some { handler := .strategy s })
    (none : ∀ m ∈ ms, m.level = n → m.step? = none) : Traced n i s ms := by
  intro before m after split
  subst split
  have before_none : ownSteps n before = [] :=
    ownSteps_eq_nil fun m' hm => none m' (List.mem_append_left _ hm)
  rw [before_none]
  exact found m (by simp)

end Traced

/-! ### Along a run -/

/-- Effects go to a strategy that is not at work. -/
def Serves (i : Nat) (s : S K) (r : Router X S K) : Prop :=
  r.current = some (i, { handler := .strategy s })

section Serves

variable {i : Nat} {s : S K} {r : Router X S K}

omit [Strategy X S] in
theorem Serves.cell (h : Serves i s r) : r.cells[i]? = some { handler := .strategy s } :=
  (Router.current_eq_some_iff.1 h).2

omit [Strategy X S] in
theorem Serves.events (h : Serves i s r) (es : Array (Event X)) :
    Serves i s { r with events := es } := h

theorem Serves.dispatch (h : Serves i s r) (step : Step X K) :
    (r.dispatch step).1 = (Handler.handle (fun _ => pure Router.refusal) step s).value.1 ∧
      Serves i (told s [step]) (r.dispatch step).2 := by
  obtain ⟨es, after⟩ := Router.dispatch_of_free h rfl step
  exact ⟨by rw [after]; rfl, Router.current_dispatch h rfl step⟩

/-- In an inference that has been entered effects go to its strategy. -/
theorem serves_enter (s : S K) (r : Router X S K) :
    Serves r.cells.size (Strategy.start s).value (r.enter s).2 :=
  Router.enter_current s r

end Serves

variable [Resumable X S K]

/-- The effects of an inference inside the run go to other strategies. -/
theorem ownSteps_inferMoments (fuel n : Nat) (s : S K) (a : Action X S K) (r : Router X S K) :
    ownSteps n (inferMoments fuel n s a r) = [] := by
  refine ownSteps_eq_nil fun m hm level => ?_
  rcases inside_of_mem_inferMoments hm with ⟨j, deeper, above⟩ | ⟨t, es, rfl⟩
  · have pos := above.pos
    omega
  · rfl

/-- Runs with the given fuel find the strategy that effects go to as their own effects have made it,
and leave it so. -/
structure Historical (X : Type) (S : Type → Type) (K : Type) [Strategy X S] [Resumable X S K]
    (fuel : Nat) : Prop where
  advance : ∀ {n i s} {a : Action X S K} {r}, Serves i s r →
    Traced n i s (advanceMoments fuel n a r) ∧ ∀ x, advance fuel a r = some x →
      Serves i (told s (ownSteps n (advanceMoments fuel n a r))) x.2
  drive : ∀ {n i s j} step {r : Router X S K}, Serves i s r →
    Traced n i s (driveMoments fuel n j step r) ∧ ∀ x, drive fuel j step r = some x →
      Serves i (told s (ownSteps n (driveMoments fuel n j step r))) x.2
  complete : ∀ {n i s} {a : Action X S K} {r}, Serves i s r →
    Traced n i s (completeMoments fuel n a r) ∧ ∀ x, complete fuel a r = some x →
      Serves i (told s (ownSteps n (completeMoments fuel n a r))) x.2

/-- An inference inside the run leaves the strategy alone. -/
theorem traced_inferMoments {n i : Nat} {s : S K} {r : Router X S K} (serves : Serves i s r)
    (fuel : Nat) (t : S K) (a : Action X S K) : Traced n i s (inferMoments fuel n t a r) := by
  obtain ⟨inside, -⟩ := Array.getElem?_eq_some_iff.1 serves.cell
  refine traced_of_forall (fun m hm => ?_) fun m hm level => ?_
  · rcases inside_of_mem_inferMoments hm with ⟨j, -, above⟩ | ⟨u, es, rfl⟩
    · rw [above.below i inside, serves.cell]
    · exact serves.cell
  · rcases inside_of_mem_inferMoments hm with ⟨j, deeper, above⟩ | ⟨u, es, rfl⟩
    · have pos := above.pos
      omega
    · rfl

section Step

variable {fuel n i : Nat} (ih : Historical X S K fuel) {s : S K} {r : Router X S K}
  (serves : Serves i s r)

include ih serves

/-- The next thing that a program does tells the strategy of its own effects alone. -/
theorem historical_advance (a : Action X S K) :
    Traced n i s (advanceMoments (fuel + 1) n a r) ∧ ∀ x, advance (fuel + 1) a r = some x →
      Serves i (told s (ownSteps n (advanceMoments (fuel + 1) n a r))) x.2 := by
  cases a with
  | perform step =>
    rw [advanceMoments]
    refine ⟨traced_nil, fun x run => ?_⟩
    cases run
    exact serves
  | fail e =>
    rw [advanceMoments]
    refine ⟨traced_nil, fun x run => ?_⟩
    cases run
    exact serves
  | display v k =>
    rw [advanceMoments]
    exact ih.advance (serves.events _)
  | probe k =>
    rw [advanceMoments, ownSteps_view]
    obtain ⟨traced, left⟩ := ih.advance (n := n) (a := .start (k r.view)) serves
    exact ⟨.cons serves.cell (by rwa [ownSteps_view]), left⟩
  | dispatch step k =>
    rw [advanceMoments, ownSteps_dispatch, told_cons]
    obtain ⟨-, after⟩ := serves.dispatch step
    obtain ⟨traced, left⟩ := ih.advance (n := n) (a := .start (k (r.dispatch step).1)) after
    exact ⟨.cons serves.cell (by rwa [ownSteps_dispatch]), left⟩
  | infer t p k =>
    rw [advanceMoments, ownSteps_append, ownSteps_inferMoments, List.nil_append, advance]
    have traced := traced_inferMoments (n := n) serves fuel t (.start p)
    have unchanged := ownSteps_inferMoments fuel n t (.start p) r
    cases run : infer fuel t (.start p) r with
    | none => exact ⟨traced.append traced_nil, by simp⟩
    | some x =>
      -- The inference gives back the router.
      obtain ⟨es, after⟩ := infer_router run
      have restored : Serves i s x.2.2 := by
        rw [after]
        exact serves.events es
      obtain ⟨rest, left⟩ := ih.advance (n := n) (a := .start (k x.1)) restored
      exact ⟨traced.append (by rwa [unchanged]), left⟩
  | run p k =>
    rw [advanceMoments, ownSteps_append, told_append, advance]
    obtain ⟨traced, left⟩ := ih.complete (n := n) (a := .start p) serves
    cases run : complete fuel (.start p) r with
    | none => exact ⟨traced.append traced_nil, by simp⟩
    | some x =>
      obtain ⟨rest, left⟩ := ih.advance (n := n) (a := .start (k (valueOf x.2 x.1))) (left x run)
      exact ⟨traced.append rest, left⟩
  | drive step k =>
    rw [advanceMoments, ownSteps_append, told_append, advance]
    obtain ⟨traced, left⟩ := ih.drive (n := n) (j := 0) step serves
    cases run : drive fuel 0 step r with
    | none => exact ⟨traced.append traced_nil, by simp⟩
    | some x =>
      obtain ⟨rest, left⟩ := ih.advance (n := n) (a := .start (k x.1)) (left x run)
      exact ⟨traced.append rest, left⟩

/-- The strategy is told of an effect, and then of what the program goes on with. -/
theorem historical_drive (j : Nat) (step : Step X K) :
    Traced n i s (driveMoments (fuel + 1) n j step r) ∧ ∀ x, drive (fuel + 1) j step r = some x →
      Serves i (told s (ownSteps n (driveMoments (fuel + 1) n j step r))) x.2 := by
  rw [driveMoments, ownSteps_dispatch, told_cons, drive]
  obtain ⟨-, after⟩ := serves.dispatch step
  rcases answered : r.dispatch step with ⟨e | ⟨k, v⟩ | v, q⟩
  all_goals rw [answered] at after
  · refine ⟨.cons serves.cell traced_nil, fun x same => ?_⟩
    cases same
    exact after
  · obtain ⟨traced, left⟩ :=
      ih.advance (n := n) (a := Resumable.resume k v) (after.events (q.events.push (.resumed v)))
    simp only [ownSteps_append, told_append]
    rcases run : advance fuel (Resumable.resume k v) (q.report (.resumed v)) with _ | ⟨e | next, p⟩
    · refine ⟨.cons serves.cell ?_, by simp⟩
      rw [ownSteps_dispatch]
      exact traced.append traced_nil
    · refine ⟨.cons serves.cell ?_, fun x same => ?_⟩
      · rw [ownSteps_dispatch]
        exact traced.append traced_nil
      · cases same
        exact left _ run
    · obtain ⟨rest, final⟩ := ih.drive (n := n) (j := j + 1) next (left _ run)
      refine ⟨.cons serves.cell ?_, final⟩
      rw [ownSteps_dispatch]
      exact traced.append rest
  · refine ⟨.cons serves.cell traced_nil, fun x same => ?_⟩
    cases same
    exact after

theorem historical_complete (a : Action X S K) :
    Traced n i s (completeMoments (fuel + 1) n a r) ∧ ∀ x, complete (fuel + 1) a r = some x →
      Serves i (told s (ownSteps n (completeMoments (fuel + 1) n a r))) x.2 := by
  rw [completeMoments, ownSteps_append, told_append, complete]
  obtain ⟨traced, left⟩ := ih.advance (n := n) (a := a) serves
  rcases run : advance fuel a r with _ | ⟨e | step, q⟩
  · exact ⟨traced.append traced_nil, by simp⟩
  · refine ⟨traced.append traced_nil, fun x same => ?_⟩
    cases same
    exact left _ run
  · obtain ⟨rest, left⟩ := ih.drive (n := n) (j := 0) step (left _ run)
    exact ⟨traced.append rest, left⟩

end Step

theorem historical (fuel : Nat) : Historical X S K fuel := by
  induction fuel with
  | zero =>
    refine ⟨fun _ => ⟨?_, by simp [advance]⟩, fun _ _ _ => ⟨?_, by simp [drive]⟩,
      fun _ => ⟨?_, by simp [complete]⟩⟩
    · rw [advanceMoments]
      exact traced_nil
    · rw [driveMoments]
      exact traced_nil
    · rw [completeMoments]
      exact traced_nil
  | succ fuel ih =>
    exact ⟨fun serves => historical_advance ih serves _,
      fun step _ serves => historical_drive ih serves _ step,
      fun serves => historical_complete ih serves _⟩

/-! ### During an inference -/

/-- The strategy of the outermost inference. It is in the given cell until it is asked for the
result. -/
def Moment.strategy? (i : Nat) (m : Moment X S K) : Option (S K) :=
  match m.use with
  | .finish s => if m.level = 0 then some s else m.router.strategy? i
  | _ => m.router.strategy? i

omit [Strategy X S] [Resumable X S K] in
theorem Moment.strategy?_of_cell {i : Nat} {s : S K} {m : Moment X S K} (inside : 0 < m.level)
    (found : m.router.cells[i]? = some { handler := .strategy s }) : m.strategy? i = some s := by
  unfold Moment.strategy? Router.strategy?
  rw [found]
  split
  · exact if_neg (Nat.ne_of_gt inside)
  · rfl

omit [Strategy X S] [Resumable X S K] in
theorem strategyAt_of_serves {i : Nat} {s d : S K} {r : Router X S K} (serves : Serves i s r) :
    strategyAt r i d = s := by
  unfold strategyAt
  rw [serves.cell]

/-- The moments of an inference are those of its program and, if the program has come to a halt, one
at which the strategy is asked for the result. -/
theorem inferMoments_succ (fuel : Nat) (s : S K) (a : Action X S K) (r : Router X S K) :
    ∃ last, inferMoments (fuel + 1) 0 s a r = completeMoments fuel 1 a (r.enter s).2 ++ last ∧
      (last = [] ∨ ∃ q, last = [⟨0, q, .finish
        (told (Strategy.start s).value (ownSteps 1 (completeMoments fuel 1 a (r.enter s).2)))⟩]) := by
  rw [inferMoments]
  refine ⟨_, rfl, ?_⟩
  split
  · next q run =>
    have serves := ((historical fuel).complete (n := 1) (serves_enter s r)).2 _ run
    exact .inr ⟨_, by rw [strategyAt_of_serves serves]⟩
  · exact .inl rfl

/-- The program of an inference has the inference around it. -/
theorem level_pos_of_mem_completeMoments {fuel : Nat} {s : S K} {a : Action X S K}
    {r : Router X S K} : ∀ m ∈ completeMoments fuel 1 a (r.enter s).2, 0 < m.level := by
  intro m hm
  have entered : ∃ j, 1 = 0 + j ∧ Above r j (r.enter s).2 := ⟨1, rfl, above_enter r s⟩
  obtain ⟨j, level, above⟩ :=
    (moments_of_invariant (invariant_above_from r 0) fuel).complete entered m hm
  have pos := above.pos
  omega

/-- The moments of the program alone. -/
theorem filter_inferMoments_succ (fuel : Nat) (s : S K) (a : Action X S K) (r : Router X S K) :
    (inferMoments (fuel + 1) 0 s a r).filter (fun m => m.level ≠ 0) =
      completeMoments fuel 1 a (r.enter s).2 := by
  have kept : (completeMoments fuel 1 a (r.enter s).2).filter (fun m => m.level ≠ 0) =
      completeMoments fuel 1 a (r.enter s).2 :=
    List.filter_eq_self.2 fun m hm =>
      decide_eq_true (Nat.ne_of_gt (level_pos_of_mem_completeMoments m hm))
  obtain ⟨last, moments, rfl | ⟨q, rfl⟩⟩ := inferMoments_succ fuel s a r
  · rw [moments, List.append_nil, kept]
  · rw [moments, List.filter_append, kept]
    exact List.append_nil _

/-- What is kept of moments, if nothing is kept of the one at which the strategy is asked for the
result. -/
theorem filterMap_inferMoments_succ {β : Type} (f : Moment X S K → Option β)
    (asked : ∀ q t, f ⟨0, q, .finish t⟩ = none) (fuel : Nat) (s : S K) (a : Action X S K)
    (r : Router X S K) :
    (inferMoments (fuel + 1) 0 s a r).filterMap f =
      (completeMoments fuel 1 a (r.enter s).2).filterMap f := by
  obtain ⟨last, moments, ends⟩ := inferMoments_succ fuel s a r
  have none : last.filterMap f = [] := by
    rcases ends with rfl | ⟨q, rfl⟩
    · rfl
    · exact List.filterMap_cons_none (asked _ _)
  rw [moments, List.filterMap_append, none, List.append_nil]

theorem ownSteps_inferMoments_succ (fuel : Nat) (s : S K) (a : Action X S K) (r : Router X S K) :
    ownSteps 1 (inferMoments (fuel + 1) 0 s a r) =
      ownSteps 1 (completeMoments fuel 1 a (r.enter s).2) :=
  filterMap_inferMoments_succ _ (fun _ _ => rfl) fuel s a r

/-- At each moment of an inference the strategy is as the effects so far have made it. -/
theorem strategy?_of_moments {fuel : Nat} {s : S K} {a : Action X S K} {r : Router X S K}
    {before after : List (Moment X S K)} {m : Moment X S K}
    (split : inferMoments fuel 0 s a r = before ++ m :: after) :
    m.strategy? r.cells.size = some (told (Strategy.start s).value (ownSteps 1 before)) := by
  cases fuel with
  | zero =>
    rw [inferMoments] at split
    simp at split
  | succ fuel =>
    have traced := ((historical fuel).complete (n := 1) (a := a) (serves_enter s r)).1
    obtain ⟨last, moments, ends⟩ := inferMoments_succ fuel s a r
    rw [moments] at split
    have found {before after : List (Moment X S K)} {m : Moment X S K}
        (split : completeMoments fuel 1 a (r.enter s).2 = before ++ m :: after) :
        m.strategy? r.cells.size = some (told (Strategy.start s).value (ownSteps 1 before)) := by
      have hm : m ∈ completeMoments fuel 1 a (r.enter s).2 := by simp [split]
      exact Moment.strategy?_of_cell (level_pos_of_mem_completeMoments m hm)
        (traced before m after split)
    -- The moment is one of the program, or the one at which the strategy is asked for the result.
    rcases ends with rfl | ⟨q, rfl⟩
    · rw [List.append_nil] at split
      exact found split
    · rcases List.eq_nil_or_concat after with rfl | ⟨after, final, rfl⟩
      · obtain ⟨same, asked⟩ := List.append_inj' split rfl
        obtain ⟨rfl, -⟩ := List.cons.inj asked
        rw [same]
        rfl
      · rw [List.concat_eq_append, ← List.cons_append, ← List.append_assoc] at split
        exact found (List.append_inj' split rfl).1

/-- An inference that gives a result has run its program to the end, and the strategy is as the
effects have made it when it is asked for the result, if it is. -/
theorem conclude_of_infer {fuel : Nat} {s : S K} {a : Action X S K} {r : Router X S K} {x}
    (run : infer (fuel + 1) s a r = some x) :
    ∃ outcome q, complete fuel a (r.enter s).2 = some (outcome, q) ∧
      x = conclude (Handler.name (Strategy.start s).value)
        (told (Strategy.start s).value (ownSteps 1 (inferMoments (fuel + 1) 0 s a r))) outcome
        (q.leave (r.enter s).1) := by
  rw [infer_succ] at run
  rw [ownSteps_inferMoments_succ]
  split at run
  · cases run
  · next outcome q inner =>
    have serves := ((historical fuel).complete (n := 1) (serves_enter s r)).2 _ inner
    rw [strategyAt_of_serves serves] at run
    exact ⟨outcome, q, inner, (Option.some.inj run).symm⟩

/-- The strategy that an inference leaves is the one that its effects have made, asked for the result
if the program has come to a halt. -/
theorem strategy_of_infer {fuel : Nat} {s : S K} {a : Action X S K} {r : Router X S K} {x}
    (run : infer fuel s a r = some x) :
    ∃ name outcome q, x = conclude name
      (told (Strategy.start s).value (ownSteps 1 (inferMoments fuel 0 s a r))) outcome q := by
  cases fuel with
  | zero => simp [infer] at run
  | succ fuel =>
    obtain ⟨outcome, q, -, concluded⟩ := conclude_of_infer run
    exact ⟨_, outcome, _, concluded⟩

end Run

end Posterior
