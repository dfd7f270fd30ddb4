import Posterior.Proofs.Choices
import Posterior.Proofs.DirectSampling
import Posterior.Proofs.Tally

/-!
# Sampled paths are explored

Forward sampling follows one path of a program, and exhaustive enumeration all of them. If each
choice samples only values that its support lists, the path that forward sampling takes is one that
enumeration explores, and the value at its end is among those that enumeration comes to.

The values themselves have to be listed. It is not enough that a value equal to the sampled one is:
a program can tell equal values apart, for a negative zero is spelled with its sign.

## Main definitions

* `Tree.SamplesListed` — choices sample what they list
* `Run.chosen` — the values that choices are answered with

## Main results

* `Run.sampled_of_infer` — forward sampling follows a path of the tree
* `Run.sampled_path_explored` — enumeration comes to the value by the same choices
* `Run.sampled_path_unexplored` — values that only equal listed ones may not be come to
-/

namespace Posterior

variable {X : Type} {T : Type → Type} {K : Type}

theorem Distribution.mem_listed_iff {d : Distribution X} {params : List Value} {v : Value} :
    v ∈ d.listed params ↔ ∃ vs, d.support params = .ok vs ∧ v ∈ vs := by
  unfold listed
  cases d.support params <;> simp

/-- Each choice on the paths of the tree samples only values that its support lists. -/
def Tree.SamplesListed : Tree X → Prop
  | exit _ => True
  | weight _ t => t.SamplesListed
  | draw d params next =>
    (∀ source v, (d.sample params source).1 = .ok v → v ∈ d.listed params) ∧
      ∀ v ∈ d.listed params, (next v).SamplesListed
  | fail _ => True

namespace Run

/-! ### Choices -/

section

variable {S : Type → Type} [Handler X S]

/-- The value that a choice is answered with. -/
def Moment.choice? (m : Moment X S K) : Option Value :=
  match m.use with
  | .dispatch (.draw k d params) =>
    match (m.router.dispatch (.draw k d params)).1 with
    | .ok (.resume _ v) => some v
    | _ => none
  | _ => none

/-- The values that choices are answered with inside that many inferences, in order. -/
def chosen (n : Nat) (ms : List (Moment X S K)) : List Value :=
  ms.filterMap fun m => if m.level = n then m.choice? else none

variable {n : Nat} {r : Router X S K} {ms : List (Moment X S K)}

theorem chosen_draw {k k' : K} {d : Distribution X} {params : List Value} {v : Value}
    (answer : (r.dispatch (.draw k d params)).1 = .ok (.resume k' v)) :
    chosen n (⟨n, r, .dispatch (.draw k d params)⟩ :: ms) = v :: chosen n ms := by
  simp [chosen, Moment.choice?, answer]

theorem chosen_exit (v : Value) :
    chosen n (⟨n, r, .dispatch (.exit v)⟩ :: ms) = chosen n ms := by
  simp [chosen, Moment.choice?]

end

/-! ### Forward sampling along a tree -/

variable [Scalar X] [Strategy X T]

/-- Effects and choices lead along a path of the tree, unless they lead to a failure, and the value
of the path is what forward sampling keeps. -/
def FollowsPath (h : ForwardSampling X K) (t : Tree X) (steps : List (Step X K))
    (choices : List Value) (outcome : Result (Option Value)) : Prop :=
  ∀ w, outcome = .ok w → ∃ h' v, w = none ∧
    told (⟨[], .sampling h⟩ : Strategies X T K) steps = ⟨[], .sampling h'⟩ ∧
    h'.result = some v ∧ (choices, v) ∈ t.leaves

section FollowsPath

variable {h : ForwardSampling X K} {t : Tree X} {steps : List (Step X K)} {choices : List Value}
  {outcome : Result (Option Value)}

theorem followsPath_error (e : Failure) :
    FollowsPath (T := T) h t steps choices (.error e) := by
  intro w same
  cases same

theorem followsPath_exit (v : Value) :
    FollowsPath (T := T) h (.exit v) [.exit v] [] (.ok none) := by
  intro w same
  cases same
  exact ⟨_, v, rfl, rfl, rfl, by simp [Tree.leaves]⟩

/-- A choice that is answered with a listed value comes before a path of the subtree of the value. -/
theorem FollowsPath.cons_draw {k : K} {d : Distribution X} {params : List Value} {v : Value}
    {next : Value → Tree X}
    (rest : FollowsPath (T := T) (h.handle (.draw k d params)).value.2 (next v) steps choices outcome)
    (member : v ∈ d.listed params) :
    FollowsPath (T := T) h (.draw d params next) (.draw k d params :: steps) (v :: choices)
      outcome := by
  intro w same
  obtain ⟨h', u, none, kept, result, leaf⟩ := rest w same
  have path : (v :: choices, u) ∈ (Tree.draw d params next).leaves := by
    rw [Tree.leaves, List.mem_flatMap]
    exact ⟨v, List.mem_reverse.2 member, List.mem_map_of_mem leaf⟩
  exact ⟨h', u, none, kept, result, path⟩

end FollowsPath

variable [Resumable X (Strategies X T) K] {fuel more n j i : Nat} {h : ForwardSampling X K}
  {t : Tree X} {r q : Router X (Strategies X T) K} {x : Result (Option Value)}

theorem followsPath_goOn {a : Action X (Strategies X T) K}
    (effects : ∀ {step : Step X K} {r : Router X (Strategies X T) K},
      Serves i ⟨[], .sampling h⟩ r →
      (Action.perform step : Action X (Strategies X T) K).Unfolds t →
      drive more j step r = some (x, q) →
        FollowsPath (T := T) h t (ownSteps n (driveMoments more n j step r))
          (chosen n (driveMoments more n j step r)) x)
    (serves : Serves i ⟨[], .sampling h⟩ r) (unfolds : a.Unfolds t)
    (run : goOn fuel more j a r = some (x, q)) :
    FollowsPath (T := T) h t (ownSteps n (goOnMoments fuel more n j a r))
      (chosen n (goOnMoments fuel more n j a r)) x := by
  rcases goOn_of_unfolds n unfolds run with ⟨err, rfl, -⟩ | ⟨step, es, unfolds, run, moments⟩
  · exact followsPath_error err
  · rw [moments]
    exact effects (serves.events es) unfolds run

/-- What an effect leads to under forward sampling follows the tree of the effect. -/
theorem followsPath_drive {step : Step X K} (serves : Serves i ⟨[], .sampling h⟩ r)
    (unfolds : (Action.perform step : Action X (Strategies X T) K).Unfolds t)
    (listed : t.SamplesListed) (run : drive fuel j step r = some (x, q)) :
    FollowsPath (T := T) h t (ownSteps n (driveMoments fuel n j step r))
      (chosen n (driveMoments fuel n j step r)) x := by
  induction fuel generalizing h t j step r with
  | zero => simp [drive] at run
  | succ fuel ih =>
    obtain ⟨answer, served⟩ := serves.dispatch step
    have answer : (r.dispatch step).1 = (h.handle step).value.1 := answer
    have served : Serves i ⟨[], .sampling (h.handle step).value.2⟩ (r.dispatch step).2 := served
    cases unfolds with
    | exit v =>
      have halted : (r.dispatch (.exit v)).1 = .ok (.halt none) := answer
      rw [drive_of_halt halted] at run
      rw [driveMoments_of_not_resume (by simp [halted]), ownSteps_dispatch, chosen_exit]
      cases run
      exact followsPath_exit v
    | @weight k l t unfolds =>
      rw [drive_of_error answer] at run
      cases run
      exact followsPath_error _
    | @draw k d params next unfolds =>
      rw [(h.handle_draw k d params).1] at answer
      cases drawn : (d.sample params h.source).1 with
      | error e =>
        rw [drawn] at answer
        rw [drive_of_error answer] at run
        cases run
        exact followsPath_error e
      | ok v =>
        rw [drawn] at answer
        have resumed : (r.dispatch (.draw k d params)).1 = .ok (.resume k v) := answer
        -- What is sampled is listed, so the tree goes on below it, and so does the search.
        have member := listed.1 h.source v drawn
        obtain ⟨vs, support, hv⟩ := Distribution.mem_listed_iff.1 member
        rw [drive_of_resume resumed] at run
        rw [driveMoments_of_resume resumed, ownSteps_dispatch, chosen_draw resumed]
        have rest := followsPath_goOn (n := n)
          (fun serves unfolds run => ih serves unfolds (listed.2 v member) run) (served.events _)
          (unfolds vs support v hv) run
        exact rest.cons_draw member

/-! ### Inference -/

omit [Resumable X (Strategies X T) K] in
theorem start_sampling (h : ForwardSampling X K) :
    (Strategy.start (⟨[], .sampling h⟩ : Strategies X T K)).value =
      ⟨[], .sampling { h with result := none, draws := 0 }⟩ := rfl

omit [Resumable X (Strategies X T) K] in
theorem exists_told_sampling (h : ForwardSampling X K) (steps : List (Step X K)) :
    ∃ h', told (⟨[], .sampling h⟩ : Strategies X T K) steps = ⟨[], .sampling h'⟩ := by
  induction steps generalizing h with
  | nil => exact ⟨h, rfl⟩
  | cons step steps ih => exact ih _

omit [Resumable X (Strategies X T) K] in
/-- What forward sampling gives is the point mass at the value that it has kept. -/
theorem delta_of_conclude {name : String} {outcome : Result (Option Value)}
    {d : Distribution X} {s : Strategies X T K}
    (concluded : conclude name (⟨[], .sampling h⟩ : Strategies X T K) outcome r = (.ok d, s, q)) :
    ∃ v, outcome = .ok none ∧ h.result = some v ∧ d = .delta v := by
  match outcome with
  | .error e => cases concluded
  | .ok (some u) => cases concluded
  | .ok none =>
    have result : h.finish.1 = .ok d := congrArg Prod.fst concluded
    cases kept : h.result with
    | none => simp [ForwardSampling.finish, kept] at result
    | some v =>
      simp only [ForwardSampling.finish, kept] at result
      exact ⟨v, rfl, rfl, (Except.ok.inj result).symm⟩

/-- What forward sampling gives is a point mass. -/
theorem delta_of_infer {a : Action X (Strategies X T) K} {d : Distribution X}
    {s : Strategies X T K} (run : infer fuel ⟨[], .sampling h⟩ a r = some (.ok d, s, q)) :
    ∃ v, d = .delta v := by
  obtain ⟨name, outcome, p, concluded⟩ := strategy_of_infer run
  obtain ⟨h', told'⟩ := exists_told_sampling (T := T) { h with result := none, draws := 0 }
    (ownSteps 1 (inferMoments fuel 0 ⟨[], .sampling h⟩ a r))
  rw [start_sampling, told'] at concluded
  obtain ⟨v, -, -, delta⟩ := delta_of_conclude concluded.symm
  exact ⟨v, delta⟩

theorem chosen_inferMoments_succ (fuel : Nat) (s : Strategies X T K)
    (a : Action X (Strategies X T) K) (r : Router X (Strategies X T) K) :
    chosen 1 (inferMoments (fuel + 1) 0 s a r) =
      chosen 1 (completeMoments fuel 1 a (r.enter s).2) :=
  filterMap_inferMoments_succ _ (fun _ _ => rfl) fuel s a r

/-- Forward sampling of a program with a tree gives the point mass at the end of the path that it has
taken. -/
theorem sampled_of_infer {a : Action X (Strategies X T) K} (unfolds : a.Unfolds t)
    (listed : t.SamplesListed) {d : Distribution X} {s : Strategies X T K}
    (run : infer fuel ⟨[], .sampling h⟩ a r = some (.ok d, s, q)) :
    ∃ v, d = .delta v ∧
      (chosen 1 (inferMoments fuel 0 ⟨[], .sampling h⟩ a r), v) ∈ t.leaves := by
  obtain ⟨more, outcome, p, rfl, inner, concluded⟩ := goOn_of_infer run
  have entered := serves_enter (⟨[], .sampling h⟩ : Strategies X T K) r
  rw [start_sampling] at entered concluded
  rw [chosen_inferMoments_succ, completeMoments_succ]
  have followed := followsPath_goOn (n := 1)
    (fun serves unfolds run => followsPath_drive serves unfolds listed run) entered unfolds inner
  cases outcome with
  | error e => cases concluded
  | ok w =>
    obtain ⟨h', v, -, left, kept, leaf⟩ := followed w rfl
    rw [left] at concluded
    obtain ⟨u, -, kept', delta⟩ := delta_of_conclude concluded.symm
    obtain rfl : v = u := Option.some.inj (kept.symm.trans kept')
    exact ⟨v, delta, leaf⟩

/-- Every direct-sampling result is the end of a path of the enumeration. Let a program have finite
paths, on which choices sample only values that their supports list. If forward sampling gives the
point mass at a value, and enumeration with a recording around it meets no failure before it is out
of paths, then the value is among those of the ends of paths in the recording, on a path of the same
choices: the recording holds the ends of all paths of the program, in the order of the search. -/
theorem sampled_path_explored {a : Action X (Strategies X T) K} (unfolds : a.Unfolds t)
    (listed : t.SamplesListed) {d : Distribution X} {v : Value} {s : Strategies X T K}
    (sampled : infer fuel ⟨[], .sampling h⟩ a r = some (.ok d, s, q)) (mass : d.IsPointMass v)
    {es : Array (RecordedEffect X)} {e₀ e : Enumeration X K} {x : Result (Distribution X)}
    {s' : Strategies X T K} {r' q' : Router X (Strategies X T) K}
    (explored : infer more ⟨[.recording es], .enumeration e₀⟩ a r' = some (x, s', q'))
    (search : s'.search? = some e) (done : e.phase = .done) :
    ∃ log, s'.layers = [.recording log] ∧ exitsOf log.toList = t.leaves.map Prod.snd ∧
      ∃ i : Nat, t.leaves[i]? =
          some (chosen 1 (inferMoments fuel 0 ⟨[], .sampling h⟩ a r), v) ∧
        (exitsOf log.toList)[i]? = some v := by
  obtain ⟨u, delta, leaf⟩ := sampled_of_infer unfolds listed sampled
  rw [delta, Distribution.isPointMass_delta_iff] at mass
  rw [mass] at leaf
  obtain ⟨i, at_leaf⟩ := List.mem_iff_getElem?.1 leaf
  -- The search has been through the whole tree, and the recording holds what it has come to.
  obtain ⟨ls, m, left, tells⟩ := search_of_infer rfl explored
  obtain ⟨_, exhausts⟩ := exhausts_of_infer unfolds explored
  rw [left] at search
  obtain rfl := Option.some.inj search
  obtain ⟨-, exits⟩ := exhausts.of_done (Enumeration.phase_eq_done_iff.1 done)
  rw [Tree.exits_singleton] at exits
  obtain ⟨l, rest, rfl, none, rfl⟩ := List.forall₂_cons_left_iff.1 tells
  cases none
  refine ⟨_, by rw [left], exits, i, at_leaf, ?_⟩
  rw [List.toList_toArray, exits, List.getElem?_map, at_leaf]
  rfl

end Run

/-! ### Values with two spellings -/

/-- A choice among the given values, the spelling of which is the end of the path. -/
def Tree.spelled (values : List Value) : Tree Float :=
  .draw Distribution.uniformDraw values fun v => .exit (.str v.text)

/-- The program that makes the choice. -/
abbrev Tree.spelledProgram (values : List Value) :
    Action Float (Strategies Float (NoOther Float)) (Tree.Rest Float) :=
  (Tree.spelled values).program

namespace Run

open Posterior.Tree (spelled spelledProgram)

variable {k : Type} [Resumable Float (Strategies Float (NoOther Float)) k] (fuel : Nat)
  (a : Action Float (Strategies Float (NoOther Float)) k)
  (r : Router Float (Strategies Float (NoOther Float)) k)

/-- Forward sampling has ended with the text that a computed support shows. -/
theorem isPointMass_of_support (h : ForwardSampling Float k) (u : String)
    (shown : (infer fuel ⟨[], .sampling h⟩ a r).map (fun x =>
      match x.1.bind fun d => d.support [] with
      | .ok [.str w] => w == u
      | _ => false) = some true) :
    ∃ d s q, infer fuel ⟨[], .sampling h⟩ a r = some (.ok d, s, q) ∧ d.IsPointMass (.str u) := by
  obtain ⟨⟨y, s, q⟩, run, supported⟩ := Option.map_eq_some_iff.1 shown
  cases y with
  | error e => cases supported
  | ok d =>
    obtain ⟨v, rfl⟩ := delta_of_infer run
    refine ⟨_, s, q, run, Distribution.isPointMass_delta_iff.2 ?_⟩
    change (match (.ok [v] : Result (List Value)) with
      | .ok [.str w] => w == u
      | _ => false) = true at supported
    cases v with
    | str w => simpa using supported
    | _ => cases supported

/-- What a recording around a search holds, and whether the search is out of paths, without the
scores, which are logarithms and not computed here. -/
theorem recording_of_infer
    (ended : (infer fuel ⟨[.recording #[]], .enumeration (.fresh false)⟩ a r).isSome)
    (done : ((Enumeration.fresh false).after (ownSteps 1 (inferMoments fuel 0
      ⟨[.recording #[]], .enumeration (.fresh false)⟩ a r))).done = true) :
    ∃ x log e q, infer fuel ⟨[.recording #[]], .enumeration (.fresh false)⟩ a r =
        some (x, ⟨[.recording log], .enumeration e⟩, q) ∧
      e.phase = .done ∧ log = ((ownSteps 1 (inferMoments fuel 0
        ⟨[.recording #[]], .enumeration (.fresh false)⟩ a r)).map Step.recorded).toArray := by
  obtain ⟨⟨x, s, q⟩, run⟩ := Option.isSome_iff_exists.1 ended
  obtain ⟨ls, m, rfl, tells⟩ := search_of_infer rfl run
  obtain ⟨l, rest, rfl, none, rfl⟩ := List.forall₂_cons_left_iff.1 tells
  cases none
  exact ⟨x, _, _, q, run, Enumeration.phase_eq_done_iff.2 done, rfl⟩

/-- Both truth values are listed, so the spelling of the one that is sampled is in the recording. -/
theorem sampled_path_explored_spelled :
    ∃ x s q log, infer 9 ⟨[.recording #[]], .enumeration (.fresh false)⟩
        (spelledProgram [.bool true, .bool false]) { source := .ofWords #[] } = some (x, s, q) ∧
      s.layers = [.recording log] ∧ .str "true" ∈ exitsOf log.toList := by
  have listed : (spelled [.bool true, .bool false]).SamplesListed :=
    ⟨fun source v drawn => Distribution.mem_of_sample_uniformDraw drawn, fun v _ => trivial⟩
  obtain ⟨d, s, q, sampled, mass⟩ := isPointMass_of_support 9
    (spelledProgram [.bool true, .bool false]) { source := .ofWords #[] }
    { source := .ofWords #[] } "true" (by decide +kernel)
  obtain ⟨x, log, e, q', explored, done, -⟩ := recording_of_infer 9
    (spelledProgram [.bool true, .bool false]) { source := .ofWords #[] }
    (by decide +kernel) (by decide +kernel)
  obtain ⟨log', layers, -, i, -, at_exit⟩ := sampled_path_explored
    (Tree.unfolds_program _) listed sampled mass explored rfl done
  exact ⟨x, _, q', log', explored, layers, List.mem_of_getElem? at_exit⟩

/-- The support lists one of the two zeros, and every value that is sampled equals it. But sampling
may come to the spelling of the other zero, and enumeration does not. -/
theorem sampled_path_unexplored :
    (spelledProgram [.float 0, .float (-0)]).Unfolds (spelled [.float 0, .float (-0)]) ∧
    (∀ source v, ((Distribution.uniformDraw : Distribution Float).sample
        [.float 0, .float (-0)] source).1 = .ok v →
      v.isIn ((Distribution.uniformDraw : Distribution Float).listed
        [.float 0, .float (-0)]) = true) ∧
    (∃ d s q, infer 9 ⟨[], .sampling { source := .ofWords #[0x8000000000000000] }⟩
        (spelledProgram [.float 0, .float (-0)]) { source := .ofWords #[] } = some (.ok d, s, q) ∧
      d.IsPointMass (.str "-0")) ∧
    ∃ x log e q, infer 9 ⟨[.recording #[]], .enumeration (.fresh false)⟩
        (spelledProgram [.float 0, .float (-0)]) { source := .ofWords #[] } =
          some (x, ⟨[.recording log], .enumeration e⟩, q) ∧
      e.phase = .done ∧ ∀ u ∈ exitsOf log.toList, (u == .str "-0") = false := by
  refine ⟨Tree.unfolds_program _, ?_, isPointMass_of_support _ _ _ _ "-0" (by decide +kernel), ?_⟩
  · intro source v drawn
    rcases List.mem_pair.1 (Distribution.mem_of_sample_uniformDraw drawn) with rfl | rfl <;>
      decide +kernel
  · obtain ⟨x, log, e, q, run, done, rfl⟩ := recording_of_infer 9
      (spelledProgram [.float 0, .float (-0)]) { source := .ofWords #[] }
      (by decide +kernel) (by decide +kernel)
    exact ⟨x, _, e, q, run, done, by decide +kernel⟩

end Run

end Posterior
