import Posterior.Proofs.Agenda

/-!
# What a search counts

A choice replaces the path that the search is on by one path for each of its values, and every path
is explored once. So the paths that have ended, those that wait and the one in progress make up what
there was at first and what the choices have added, with one path less for each choice. When the
search is done it has counted the exits and the choices of the tree, and it knows how many paths
waited at once at most.

The layers around a search count the same, since they see every effect and every answer.

## Main definitions

* `Enumeration.account` — the paths that a search accounts for
* `Enumeration.Orderly` — effects none of which comes too late or is turned down
* `Layer.Tells` — what a layer has taken down

## Main results

* `Enumeration.account_after` — no path is lost, and none is explored twice
* `Run.exists_told` — what the layers around a search have taken down
* `Run.infer_counts` — the counts during an inference and at its end
-/

namespace Posterior

variable {X : Type} {T : Type → Type} {K : Type}

/-- How many values a choice goes on with. -/
def Step.alternatives : Step X K → Nat
  | draw _ d params => (d.listed params).length
  | weight _ _ => 0
  | exit _ => 0

namespace Enumeration

variable {e : Enumeration X K} {step : Step X K}

/-! ### The paths of a search -/

/-- The paths that have ended, a path for each choice, the paths that wait, and the one in
progress. -/
def account (e : Enumeration X K) : Nat :=
  e.paths + e.forks + e.pending.length + if e.done then 0 else 1

theorem account_next (going : e.done = false) : e.next.value.2.account + 1 = e.account := by
  cases pending : e.pending with
  | nil => simp [next_of_nil pending, account, going, pending]
  | cons alt rest =>
    simp only [next_of_cons pending, account, going, pending, List.length_cons]
    omega

theorem next_forks (e : Enumeration X K) : e.next.value.2.forks = e.forks := by
  cases pending : e.pending with
  | nil => rw [next_of_nil pending]
  | cons alt rest => rw [next_of_cons pending]

theorem next_paths (e : Enumeration X K) : e.next.value.2.paths = e.paths := by
  cases pending : e.pending with
  | nil => rw [next_of_nil pending]
  | cons alt rest => rw [next_of_cons pending]

theorem phase_eq_done_iff : e.phase = .done ↔ e.done = true := by
  unfold phase
  split
  · next done => simp [done]
  · next going => split <;> simp [going]

variable [Scalar X]

/-- Each effect finds a search that is not done, and is not turned down. -/
def Orderly (e : Enumeration X K) : List (Step X K) → Prop
  | [] => True
  | step :: steps => e.done = false ∧ (e.handle step).value.1.isOk = true ∧
    Orderly (e.handle step).value.2 steps

/-- A choice is split into one alternative for each value. -/
theorem length_of_split {k : K} {d : Distribution X} {params : List Value} {score : X}
    {found : List (Alternative X K)} (split : split k d params score = .ok found) :
    found.length = (d.listed params).length := by
  rw [split_eq] at split
  cases children : Tree.children d params score with
  | error err => simp [children, Except.map] at split
  | ok cs =>
    rw [children] at split
    obtain rfl := Except.ok.inj split
    rw [Distribution.listed_of_support (Tree.support_of_children children)]
    simp

/-- An effect adds as many paths as it has alternatives. -/
theorem account_handle (going : e.done = false) (accepted : (e.handle step).value.1.isOk = true) :
    (e.handle step).value.2.account = e.account + step.alternatives := by
  cases step with
  | draw k d params =>
    cases split : split k d params e.score with
    | error err => simp [handle_draw_of_error split] at accepted; cases accepted
    | ok found =>
      -- The choice ends the path in progress, and the next one is taken from those that wait.
      have taken := account_next (e := e.forked found) going
      have forked : (e.forked found).account = e.account + found.length + 1 := by
        simp only [account, Enumeration.forked, going, List.length_append, List.length_reverse]
        omega
      have length := length_of_split split
      rw [handle_draw_of_ok split]
      simp only [Step.alternatives]
      omega
  | weight k l =>
    cases fine : acceptable l with
    | false => simp [handle_weight_of_not_acceptable fine] at accepted; cases accepted
    | true =>
      rw [handle_weight_of_acceptable fine]
      rfl
  | exit v =>
    have taken := account_next (e := e.ended v) going
    have ended : (e.ended v).account = e.account + 1 := by
      simp only [account, Enumeration.ended, going]
      omega
    rw [handle_exit]
    simp only [Step.alternatives]
    omega

/-- No path is lost, and none is explored twice. -/
theorem account_after {steps : List (Step X K)} (orderly : e.Orderly steps) :
    (e.after steps).account = e.account + (steps.map Step.alternatives).sum := by
  induction steps generalizing e with
  | nil => rfl
  | cons step steps ih =>
    obtain ⟨going, accepted, orderly⟩ := orderly
    rw [after_cons, ih orderly, account_handle going accepted, List.map_cons, List.sum_cons,
      Nat.add_assoc]

end Enumeration

/-! ### The layers around a search -/

/-- What a layer that was started with a search has taken down, after effects that have left the
search in the given state. -/
def Layer.Tells (steps : List (Step X K)) (e : Enumeration X K) : Layer X → Layer X → Prop
  | trace tag, l => l = trace tag
  | metrics c, l => ∃ c', l = metrics c' ∧ c'.draws = c.draws + e.forks ∧ c'.exits = c.exits + e.paths
  | recording _, l => l = recording (steps.map Step.recorded).toArray

variable [Scalar X]

theorem Layer.tells_starting (strategy : String) (report : Bool) (l : Layer X) :
    l.Tells [] (.fresh report : Enumeration X K) (l.starting strategy).value := by
  cases l with
  | trace tag => rfl
  | metrics c => exact ⟨c, rfl, rfl, rfl⟩
  | recording es => rfl

namespace Enumeration

variable (e : Enumeration X K) (step : Step X K)

/-- A choice is counted exactly if it is not turned down. -/
theorem forks_handle (c : Counts) :
    (c.record step.effect (e.handle step).value.1.isOk).draws + e.forks =
      c.draws + (e.handle step).value.2.forks := by
  cases step with
  | draw k d params =>
    cases split : split k d params e.score with
    | error err => rw [handle_draw_of_error split]; rfl
    | ok found =>
      rw [handle_draw_of_ok split, next_forks]
      exact Nat.add_right_comm c.draws 1 e.forks
  | weight k l =>
    cases fine : acceptable l with
    | false => rw [handle_weight_of_not_acceptable fine]; rfl
    | true => rw [handle_weight_of_acceptable fine]; rfl
  | exit v => rw [handle_exit, next_forks]; rfl

/-- The end of a path is always counted. -/
theorem paths_handle (c : Counts) :
    (c.record step.effect (e.handle step).value.1.isOk).exits + e.paths =
      c.exits + (e.handle step).value.2.paths := by
  cases step with
  | draw k d params =>
    cases split : split k d params e.score with
    | error err => rw [handle_draw_of_error split]; rfl
    | ok found => rw [handle_draw_of_ok split, next_paths]; rfl
  | weight k l =>
    cases fine : acceptable l with
    | false => rw [handle_weight_of_not_acceptable fine]; rfl
    | true => rw [handle_weight_of_acceptable fine]; rfl
  | exit v =>
    rw [handle_exit, next_paths]
    exact Nat.add_right_comm c.exits 1 e.paths

end Enumeration

theorem Layer.Tells.passed {l l' : Layer X} {steps : List (Step X K)} {e : Enumeration X K}
    (h : l.Tells steps e l') (step : Step X K) :
    l.Tells (steps ++ [step]) (e.handle step).value.2
      (l'.passed step (e.handle step).value.1) := by
  cases l with
  | trace tag =>
    obtain rfl : l' = trace tag := h
    cases step <;> simp [Layer.passed, before, after] <;> split <;> rfl
  | metrics c =>
    obtain ⟨c', rfl, draws, exits⟩ := h
    have forks := e.forks_handle step c'
    have paths := e.paths_handle step c'
    exact ⟨c'.record step.effect (e.handle step).value.1.isOk, rfl, by omega, by omega⟩
  | recording es =>
    obtain rfl : l' = recording (steps.map Step.recorded).toArray := h
    simp [Layer.Tells, Layer.passed, before, after]

namespace Run

variable [Strategy X T]

/-- After effects that go to a search with layers around it, the search has answered all of them and
the layers have taken them down. -/
theorem exists_told {ls₀ ls : List (Layer X)} {before : List (Step X K)} {e : Enumeration X K}
    (h : List.Forall₂ (Layer.Tells before e) ls₀ ls) (steps : List (Step X K)) :
    ∃ ls', told (⟨ls, .enumeration e⟩ : Strategies X T K) steps =
        ⟨ls', .enumeration (e.after steps)⟩ ∧
      List.Forall₂ (Layer.Tells (before ++ steps) (e.after steps)) ls₀ ls' := by
  induction steps generalizing before e ls with
  | nil =>
    rw [List.append_nil]
    exact ⟨ls, rfl, h⟩
  | cons step steps ih =>
    have passed : List.Forall₂ (Layer.Tells (before ++ [step]) (e.handle step).value.2) ls₀
        (ls.map (Layer.passed step (e.handle step).value.1)) :=
      List.forall₂_map_right_iff.2 (h.imp fun l l' tells => Layer.Tells.passed tells step)
    obtain ⟨ls', told', tells⟩ := ih passed
    refine ⟨ls', ?_, ?_⟩
    · rw [← List.singleton_append, told_append, told_search, told']
      rfl
    · rw [List.append_assoc] at tells
      exact tells

/-- The same, from the start. -/
theorem exists_told_start (ls : List (Layer X)) (e : Enumeration X K) (steps : List (Step X K)) :
    ∃ ls', told (Strategy.start (⟨ls, .enumeration e⟩ : Strategies X T K)).value steps =
        ⟨ls', .enumeration ((Enumeration.fresh e.reportMarginal).after steps)⟩ ∧
      List.Forall₂ (Layer.Tells steps ((Enumeration.fresh e.reportMarginal).after steps)) ls ls' := by
  have started : List.Forall₂ (Layer.Tells [] (Enumeration.fresh e.reportMarginal : Enumeration X K))
      ls (ls.map fun l => (l.starting "enumerate").value) :=
    List.forall₂_map_right_iff.2
      (List.forall₂_same.2 fun l _ => l.tells_starting "enumerate" e.reportMarginal)
  obtain ⟨ls', told, tells⟩ := exists_told (T := T) started steps
  exact ⟨ls', by rw [Layered.start_eq]; exact told, tells⟩

/-- A search with layers around it, after effects: the layers have taken them down; and if none came
too late or was turned down, the search accounts for one path and for those that choices added. -/
structure Tallied (report : Bool) (ls : List (Layer X)) (steps : List (Step X K))
    (ls' : List (Layer X)) (e : Enumeration X K) : Prop where
  layers : List.Forall₂ (Layer.Tells steps e) ls ls'
  paths : (Enumeration.fresh report).Orderly steps → 1 + (steps.map Step.alternatives).sum =
    e.paths + e.forks + e.pending.length + if e.done then 0 else 1

omit [Strategy X T] in
/-- Effects leave a search that was started tallied. -/
theorem tallied_after {report : Bool} {ls ls' : List (Layer X)} {steps : List (Step X K)}
    (tells : List.Forall₂ (Layer.Tells steps ((Enumeration.fresh report).after steps)) ls ls') :
    Tallied report ls steps ls' ((Enumeration.fresh report).after steps) :=
  ⟨tells, fun orderly => (Enumeration.account_after orderly).symm⟩

variable [Resumable X (Strategies X T) K]

/-- The search that an inference leaves, with the layers around it. -/
theorem search_of_infer {fuel : Nat} {ls : List (Layer X)} {e₀ : Enumeration X K}
    {a : Action X (Strategies X T) K} {r r' : Router X (Strategies X T) K}
    {d : Result (Distribution X)} {s : Strategies X T K} {steps : List (Step X K)}
    (performed : ownSteps 1 (inferMoments fuel 0 ⟨ls, .enumeration e₀⟩ a r) = steps)
    (run : infer fuel ⟨ls, .enumeration e₀⟩ a r = some (d, s, r')) :
    ∃ ls' m, s = ⟨ls', .enumeration
        { (Enumeration.fresh e₀.reportMarginal).after steps with marginal := m }⟩ ∧
      List.Forall₂ (Layer.Tells steps ((Enumeration.fresh e₀.reportMarginal).after steps)) ls ls' := by
  obtain ⟨name, outcome, q, result⟩ := strategy_of_infer run
  obtain ⟨ls', told, tells⟩ := exists_told_start (T := T) ls e₀ steps
  rw [performed, told] at result
  obtain ⟨m, left⟩ := conclude_search (T := T) ls'
    ((Enumeration.fresh e₀.reportMarginal).after steps) name outcome q
  exact ⟨ls', m, (congrArg (fun x => x.2.1) result).trans left, tells⟩

/-- No search state is lost or resumed twice, and the counts are exact. In every state of a search,
while any program is inferred, the layers around it have counted as many choices and ends of paths
as the search, and if no effect has come too late or been turned down, the paths that have ended,
the choices, the paths that wait and the one in progress are one more than the values that choices
have listed. When the run of a program with finite paths is halted, the search has counted the exits
and the choices of its tree; and the paths that waited at once, at most, are the values listed at a
choice together with those listed before the ones that lead there. -/
theorem infer_counts (fuel : Nat) (ls : List (Layer X)) (e₀ : Enumeration X K)
    (a : Action X (Strategies X T) K) (r : Router X (Strategies X T) K) :
    (∀ before m after, inferMoments fuel 0 ⟨ls, .enumeration e₀⟩ a r = before ++ m :: after →
      ∃ ls' e, m.strategy? r.cells.size = some ⟨ls', .enumeration e⟩ ∧
        Tallied e₀.reportMarginal ls (ownSteps 1 before) ls' e) ∧
    ∀ d s r', infer fuel ⟨ls, .enumeration e₀⟩ a r = some (d, s, r') →
      ∃ ls' e, s = ⟨ls', .enumeration e⟩ ∧
        Tallied e₀.reportMarginal ls
          (ownSteps 1 (inferMoments fuel 0 ⟨ls, .enumeration e₀⟩ a r)) ls' e ∧
        ∀ t, a.Unfolds t → e.phase = .done → e.paths = t.leaves.length ∧
          e.forks = t.choices.length ∧
          e.peakPending = (t.choices.map fun c => c.2 + c.1.sum).foldl max 0 := by
  refine ⟨fun before m after split => ?_, fun d s r' run => ?_⟩
  · -- A moment finds the strategy as the effects before it have made it.
    obtain ⟨ls', told, tells⟩ := exists_told_start (T := T) ls e₀ (ownSteps 1 before)
    exact ⟨ls', _, (strategy?_of_moments split).trans (congrArg some told), tallied_after tells⟩
  · obtain ⟨ls', m, left, tells⟩ := search_of_infer rfl run
    have tallied := tallied_after tells
    refine ⟨ls', _, left, ⟨tallied.layers, tallied.paths⟩, fun t unfolds done => ?_⟩
    obtain ⟨_, exhausts⟩ := exhausts_of_infer unfolds run
    -- The search has counted from zero, with the tree alone on its agenda.
    obtain ⟨counted, -⟩ := exhausts.of_done (Enumeration.phase_eq_done_iff.1 done)
    have paths := counted.paths
    have forks := counted.forks
    have peak := counted.peak
    rw [Tree.exits_singleton, List.length_map, Nat.add_comm] at paths
    rw [Tree.peaks_singleton, List.length_map, Nat.add_comm] at forks
    rw [Tree.peaks_singleton] at peak
    exact ⟨paths, forks, peak⟩

/-- Two paths wait after the outer choice, and one after the inner one, which has no values. -/
theorem infer_counts_lopsided :
    ∃ d c e r', infer 20
        (⟨[.metrics {}], .enumeration (.fresh false)⟩ :
          Strategies Float (NoOther Float) (Tree.Rest Float))
        lopsided.program { source := .ofWords #[] } =
          some (d, ⟨[.metrics c], .enumeration e⟩, r') ∧
      c.draws = 2 ∧ c.exits = 1 ∧ e.paths = 1 ∧ e.forks = 2 ∧ e.peakPending = 2 := by
  obtain ⟨-, counts⟩ := infer_counts (T := NoOther Float) 20 [.metrics {}] (.fresh false)
    lopsided.program { source := .ofWords #[] }
  obtain ⟨⟨d, s, r'⟩, run, done⟩ := Option.map_eq_some_iff.1
    (show (infer 20 (⟨[.metrics {}], .enumeration (.fresh false)⟩ :
        Strategies Float (NoOther Float) (Tree.Rest Float)) lopsided.program
          { source := .ofWords #[] }).map (fun x => (Strategies.search? x.2.1).any (·.done)) =
            some true by decide +kernel)
  obtain ⟨ls', e, rfl, tallied, exactly⟩ := counts d s r' run
  obtain ⟨paths, forks, peak⟩ :=
    exactly _ lopsided.unfolds_program (Enumeration.phase_eq_done_iff.2 done)
  obtain ⟨l, rest, ⟨c, rfl, draws, exits⟩, none, rfl⟩ :=
    List.forall₂_cons_left_iff.1 tallied.layers
  cases none
  have leaves : lopsided.leaves.length = 1 := by decide +kernel
  have choices : lopsided.choices = [([], 2), ([1], 0)] := by decide +kernel
  rw [leaves] at paths
  rw [choices] at forks peak
  exact ⟨d, c, e, r', run, by simpa [forks] using draws, by simpa [paths] using exits, paths, forks,
    peak⟩

end Run

end Posterior
