import Mathlib.Algebra.GroupWithZero.Nat
import Mathlib.Data.List.Induction
import Posterior.Proofs.Exploration
import Posterior.Proofs.History
import Posterior.Proofs.Transparency

/-!
# What a search still has to explore

The agenda of a search is a list of trees: the rest of the path that it is on, and behind it what is
left to explore of the paths that wait. An effect takes the tree in front apart. What the search is
still going to do is all on the agenda: which exits it will reach, in which order, and how many
paths will be waiting after each choice.

## Main definitions

* `Tree.leaves`, `Tree.choices` — the exits and the choices of a tree, with the ways to them
* `Enumeration.Waiting` — the trees behind the paths that wait
* `Enumeration.Counted` — what a search has counted from one state to another

## Main results

* `Enumeration.due_handle` — what one effect leaves on the agenda
* `Run.exhausts_drive` — a run that is halted has been through the agenda
* `Run.exhausts_of_infer` — the same, for an inference
-/

namespace Posterior

variable {X : Type} {T : Type → Type} {K : Type}

namespace Tree

/-! ### Exits and choices -/

/-- The exits of a tree in the order of the search: the values chosen on the way, and the value that
the path exits with. -/
def leaves : Tree X → List (List Value × Value)
  | exit v => [([], v)]
  | weight _ t => t.leaves
  | draw d params next =>
    (d.listed params).reverse.flatMap fun v => (next v).leaves.map fun p => (v :: p.1, p.2)
  | fail _ => []

/-- The choices of a tree in the order of the search: for each choice on the way, how many values
are listed before the one that is taken; and how many values are listed at the choice itself. -/
def choices : Tree X → List (List Nat × Nat)
  | exit _ => []
  | weight _ t => t.choices
  | draw d params next =>
    ([], (d.listed params).length) :: (d.listed params).zipIdx.reverse.flatMap fun (v, i) =>
      (next v).choices.map fun c => (i :: c.1, c.2)
  | fail _ => []

/-- The values that the paths of an agenda exit with. -/
def exits (ts : List (Tree X)) : List Value := ts.flatMap fun t => t.leaves.map Prod.snd

/-- How many paths wait after each choice of a tree, when that many wait behind the tree. -/
def heights (behind : Nat) (t : Tree X) : List Nat :=
  t.choices.map fun c => c.2 + c.1.sum + behind

/-- How many paths wait after each choice of an agenda. -/
def peaks : List (Tree X) → List Nat
  | [] => []
  | t :: ts => t.heights ts.length ++ peaks ts

section

variable (ts : List (Tree X)) (d : Distribution X) (params : List Value) (next : Value → Tree X)

theorem exits_exit (v : Value) : exits (exit v :: ts) = v :: exits ts := rfl

theorem exits_weight (l : X) (t : Tree X) : exits (weight l t :: ts) = exits (t :: ts) := rfl

theorem exits_singleton (t : Tree X) : exits [t] = t.leaves.map Prod.snd := List.flatMap_singleton ..

theorem peaks_singleton (t : Tree X) : peaks [t] = t.choices.map fun c => c.2 + c.1.sum :=
  List.append_nil _

/-- A choice leads to the exits of its subtrees, the last one first. -/
theorem exits_draw :
    exits (draw d params next :: ts) = exits ((d.listed params).reverse.map next ++ ts) := by
  simp only [exits, leaves, List.flatMap_cons, List.flatMap_append, List.flatMap_map,
    List.map_flatMap, List.map_map]
  rfl

theorem peaks_exit (v : Value) : peaks (exit v :: ts) = peaks ts := rfl

theorem peaks_weight (l : X) (t : Tree X) : peaks (weight l t :: ts) = peaks (t :: ts) := rfl

/-- Behind a subtree are those of the values listed before. -/
theorem peaks_branches (vs : List Value) :
    peaks (vs.reverse.map next ++ ts) =
      (vs.zipIdx.reverse.flatMap fun (v, i) => (next v).heights (i + ts.length)) ++ peaks ts := by
  -- The value listed last is explored first, so the list is taken apart from its end.
  induction vs using List.reverseRecOn with
  | nil => rfl
  | append_singleton vs v ih =>
    have behind : (vs.reverse.map next ++ ts).length = vs.length + ts.length := by simp
    rw [List.reverse_append, List.zipIdx_append, List.reverse_append, List.flatMap_append]
    simp only [List.reverse_singleton, List.map_cons, List.cons_append, List.nil_append, peaks, ih,
      behind, List.zipIdx_singleton, Nat.zero_add, List.flatMap_singleton, List.append_assoc]

/-- After a choice its values wait on top of what is behind; then comes what its subtrees do. -/
theorem peaks_draw :
    peaks (draw d params next :: ts) =
      ((d.listed params).length + ts.length) ::
        peaks ((d.listed params).reverse.map next ++ ts) := by
  have lifted (v : Value) (i : Nat) :
      (((next v).choices.map fun c => (i :: c.1, c.2)).map fun c => c.2 + c.1.sum + ts.length) =
        (next v).heights (i + ts.length) := by
    rw [heights, List.map_map]
    refine List.map_congr_left fun c _ => ?_
    simp only [Function.comp_apply, List.sum_cons]
    omega
  rw [peaks_branches, peaks, heights, choices, List.map_cons, List.map_flatMap]
  simp only [lifted]
  rfl

end

end Tree

theorem exitsOf_append (es es' : List (RecordedEffect X)) :
    exitsOf (es ++ es') = exitsOf es ++ exitsOf es' := by
  induction es with
  | nil => rfl
  | cons effect es ih =>
    cases effect with
    | draw | weight => exact ih
    | exit v => exact congrArg (v :: ·) ih

namespace Enumeration

variable {S : Type → Type} [Resumable X S K]

/-! ### One effect -/

/-- The computations that wait have the given trees. -/
def Waiting (S : Type → Type) [Resumable X S K] (pending : List (Alternative X K))
    (ts : List (Tree X)) : Prop :=
  List.Forall₂ (fun alt t => (Resumable.resume alt.k alt.value : Action X S K).Unfolds t) pending ts

/-- From one state to the other the search has ended paths with the given values, and has split at
choices after which that many paths were waiting. -/
structure Counted (e e' : Enumeration X K) (exits : List Value) (peaks : List Nat) : Prop where
  paths : e'.paths = e.paths + exits.length
  forks : e'.forks = e.forks + peaks.length
  peak : e'.peakPending = peaks.foldl max e.peakPending

omit [Resumable X S K] in
theorem Counted.trans {e e' e'' : Enumeration X K} {exits exits' : List Value}
    {peaks peaks' : List Nat} (h : Counted e e' exits peaks) (h' : Counted e' e'' exits' peaks') :
    Counted e e'' (exits ++ exits') (peaks ++ peaks') where
  paths := by rw [h'.paths, h.paths, List.length_append, Nat.add_assoc]
  forks := by rw [h'.forks, h.forks, List.length_append, Nat.add_assoc]
  peak := by rw [h'.peak, h.peak, List.foldl_append]

/-- What is on the agenda after an answer. -/
inductive Due (S : Type → Type) [Resumable X S K] :
    Resumption K → Enumeration X K → List (Tree X) → Prop where
  | halt {e} : e.done = true → Due S (.halt none) e []
  | resume {k v e t ts} : (Resumable.resume k v : Action X S K).Unfolds t →
    Waiting S e.pending ts → e.done = false → Due S (.resume k v) e (t :: ts)

variable {e e' : Enumeration X K} {t : Tree X} {ts : List (Tree X)} {step : Step X K}

omit [Resumable X S K] in
theorem next_of_nil (empty : e.pending = []) :
    e.next.value = (.halt none, { e with done := true }) := by
  rw [next, empty]
  rfl

omit [Resumable X S K] in
theorem next_of_cons {alt : Alternative X K} {rest : List (Alternative X K)}
    (pending : e.pending = alt :: rest) :
    e.next.value =
      (.resume alt.k alt.value, { e with score := alt.score, pending := rest }) := by
  rw [next, pending]
  rfl

/-- Taking the next path puts its tree in front. -/
theorem due_next (waiting : Waiting S e.pending ts) (going : e.done = false) :
    Due S e.next.value.1 e.next.value.2 ts ∧ Counted e e.next.value.2 [] [] := by
  cases pending : e.pending with
  | nil =>
    rw [pending] at waiting
    cases waiting
    rw [next_of_nil pending]
    exact ⟨.halt rfl, rfl, rfl, rfl⟩
  | cons alt rest =>
    rw [pending] at waiting
    obtain ⟨t, behind, unfolds, others, rfl⟩ := List.forall₂_cons_left_iff.1 waiting
    rw [next_of_cons pending]
    exact ⟨.resume unfolds others going, rfl, rfl, rfl⟩

variable [Scalar X]

section Handle

omit [Resumable X S K]

variable (e) (k : K) (d : Distribution X) (params : List Value) (l : X) (v : Value)

/-- The search after a choice has been split, with all of the alternatives waiting. -/
def forked (found : List (Alternative X K)) : Enumeration X K :=
  { e with
    forks := e.forks + 1
    pending := found.reverse ++ e.pending
    peakPending := Nat.max e.peakPending (found.reverse ++ e.pending).length }

/-- The search after a path has ended. -/
def ended : Enumeration X K :=
  { e with marginal := e.marginal.addLog v e.score, paths := e.paths + 1 }

variable {e k d params l}

theorem handle_draw_of_error {err : Failure} (failed : split k d params e.score = .error err) :
    (e.handle (.draw k d params)).value = (.error err, e) := by
  simp [handle, failed]

theorem handle_draw_of_ok {found : List (Alternative X K)}
    (split : split k d params e.score = .ok found) :
    (e.handle (.draw k d params)).value =
      (.ok (e.forked found).next.value.1, (e.forked found).next.value.2) := by
  simp [handle, split, forked]

theorem handle_weight_of_not_acceptable (bad : acceptable l = false) :
    (e.handle (.weight k l)).value = (.error (.arithmetic
      ("log-weight " ++ Scalar.text l ++ " is not a finite number or -inf")), e) := by
  simp [handle, bad]

theorem handle_weight_of_acceptable (fine : acceptable l = true) :
    (e.handle (.weight k l)).value = (.ok (.resume k .unit), { e with score := e.score + l }) := by
  simp [handle, fine]

variable (e) in
theorem handle_exit :
    (e.handle (.exit v)).value = (.ok (e.ended v).next.value.1, (e.ended v).next.value.2) := by
  simp [handle, ended]

variable (e step) in
/-- What an effect does to a search: nothing if it is turned down; a constraint goes on with the same
path, and a choice or the end of a path with the next one. -/
theorem handle_cases :
    (∃ err, (e.handle step).value = (.error err, e)) ∨
    (∃ k l, step = .weight k l ∧ acceptable l = true ∧
      (e.handle step).value = (.ok (.resume k .unit), { e with score := e.score + l })) ∨
    (∃ k d params, ∃ cs : List (Value × X), step = .draw k d params ∧
      Tree.children d params e.score = .ok cs ∧ (e.handle step).value =
        (.ok (e.forked (cs.map (alternative k))).next.value.1,
          (e.forked (cs.map (alternative k))).next.value.2)) ∨
    ∃ v, step = .exit v ∧
      (e.handle step).value = (.ok (e.ended v).next.value.1, (e.ended v).next.value.2) := by
  cases step with
  | draw k d params =>
    have found := split_eq k d params e.score
    cases children : Tree.children d params e.score with
    | error err =>
      rw [children] at found
      exact .inl ⟨err, handle_draw_of_error found⟩
    | ok cs =>
      rw [children] at found
      exact .inr (.inr (.inl ⟨k, d, params, cs, rfl, children, handle_draw_of_ok found⟩))
  | weight k l =>
    cases fine : acceptable l with
    | false => exact .inl ⟨_, handle_weight_of_not_acceptable fine⟩
    | true => exact .inr (.inl ⟨k, l, rfl, fine, handle_weight_of_acceptable fine⟩)
  | exit v => exact .inr (.inr (.inr ⟨v, rfl, handle_exit e v⟩))

/-- A search that turns an effect down stays as it was. -/
theorem eq_of_handle_error {err : Failure} (failed : (e.handle step).value.1 = .error err) :
    (e.handle step).value.2 = e := by
  rcases handle_cases e step with ⟨err', handled⟩ | ⟨k, l, -, -, handled⟩ |
    ⟨k, d, params, cs, -, -, handled⟩ | ⟨v, -, handled⟩
  all_goals rw [handled] at failed ⊢
  all_goals cases failed

end Handle

omit [Resumable X S K] in
/-- Asking for the result takes the marginal out of a search that is done, whether or not it has any
mass, and changes nothing else. -/
theorem exists_finish (e : Enumeration X K) : ∃ m, e.finish.value.2 = { e with marginal := m } := by
  unfold finish
  split
  · split
    · exact ⟨.empty, rfl⟩
    · simp only
      split <;> exact ⟨.empty, rfl⟩
  · exact ⟨e.marginal, rfl⟩

/-- An effect takes the tree in front apart. Nothing gets lost: what was on the agenda has been done
with the effect, or is on the agenda that it leaves. -/
theorem due_handle {answer : Resumption K}
    (unfolds : (Action.perform step : Action X S K).Unfolds t) (waiting : Waiting S e.pending ts)
    (going : e.done = false) (handled : (e.handle step).value.1 = .ok answer) :
    ∃ ts' peaks, Due S answer (e.handle step).value.2 ts' ∧
      Counted e (e.handle step).value.2 (exitsOf [(step.recorded : RecordedEffect X)]) peaks ∧
      Tree.exits (t :: ts) = exitsOf [(step.recorded : RecordedEffect X)] ++ Tree.exits ts' ∧
      Tree.peaks (t :: ts) = peaks ++ Tree.peaks ts' := by
  cases unfolds with
  | exit v =>
    obtain ⟨due, counted⟩ := due_next (S := S) (e := e.ended v) waiting going
    rw [handle_exit] at handled ⊢
    obtain rfl := Except.ok.inj handled
    refine ⟨ts, [], due, ?_, Tree.exits_exit ts v, Tree.peaks_exit ts v⟩
    have ended : Counted e (e.ended v) [v] [] := ⟨rfl, rfl, rfl⟩
    exact ended.trans counted
  | @weight k l t unfolds =>
    cases fine : acceptable l with
    | false => simp [handle_weight_of_not_acceptable fine] at handled
    | true =>
      rw [handle_weight_of_acceptable fine] at handled ⊢
      obtain rfl := Except.ok.inj handled
      exact ⟨t :: ts, [], .resume unfolds waiting going, ⟨rfl, rfl, rfl⟩, Tree.exits_weight ts l t,
        Tree.peaks_weight ts l t⟩
  | @draw k d params next unfolds =>
    cases children : Tree.children d params e.score with
    | error err =>
      have failed : split k d params e.score = .error err := by rw [split_eq, children]; rfl
      simp [handle_draw_of_error failed] at handled
    | ok cs =>
      have found : split k d params e.score = .ok (cs.map (alternative k)) := by
        rw [split_eq, children]; rfl
      have support := Tree.support_of_children children
      have listed := Distribution.listed_of_support support
      -- The last of the alternatives is on top of those that wait.
      have waiting' : Waiting S (e.forked (cs.map (alternative k))).pending
          ((d.listed params).reverse.map next ++ ts) := by
        refine List.rel_append ?_ waiting
        rw [listed, ← List.map_reverse, ← List.map_reverse, List.map_map,
          List.forall₂_map_left_iff, List.forall₂_map_right_iff, List.forall₂_same]
        intro c hc
        exact unfolds _ support c.1 (List.mem_map_of_mem (List.mem_reverse.1 hc))
      obtain ⟨due, counted⟩ := due_next waiting' going
      rw [handle_draw_of_ok found] at handled ⊢
      obtain rfl := Except.ok.inj handled
      have forked : Counted e (e.forked (cs.map (alternative k))) []
          [(d.listed params).length + ts.length] := by
        refine ⟨rfl, rfl, ?_⟩
        simp [Enumeration.forked, listed, waiting.length_eq]
      exact ⟨_, _, due, forked.trans counted, Tree.exits_draw ts d params next,
        Tree.peaks_draw ts d params next⟩

/-- The search after effects. -/
def after (e : Enumeration X K) (steps : List (Step X K)) : Enumeration X K :=
  steps.foldl (fun e step => (e.handle step).value.2) e

omit [Resumable X S K] in
theorem after_cons (e : Enumeration X K) (step : Step X K) (steps : List (Step X K)) :
    e.after (step :: steps) = (e.handle step).value.2.after steps := rfl

/-- A run with the given effects ends with a failure before the search is done; or it is halted, and
the search has been through the agenda. -/
def Exhausts (e : Enumeration X K) (ts : List (Tree X)) (steps : List (Step X K))
    (outcome : Result (Option Value)) : Prop :=
  match outcome with
  | .error _ => (e.after steps).done = false
  | .ok _ => (e.after steps).done = true ∧
    Counted e (e.after steps) (Tree.exits ts) (Tree.peaks ts) ∧
      exitsOf (steps.map Step.recorded : List (RecordedEffect X)) = Tree.exits ts

omit [Resumable X S K] in
theorem exhausts_nil (done : e.done = true) (w : Option Value) : Exhausts e [] [] (.ok w) :=
  ⟨done, ⟨rfl, rfl, rfl⟩, rfl⟩

omit [Resumable X S K] in
/-- An effect that takes the agenda apart comes before what the rest of the agenda leads to. -/
theorem Exhausts.cons {ts' : List (Tree X)} {steps : List (Step X K)} {peaks : List Nat}
    {outcome : Result (Option Value)} (h : Exhausts (e.handle step).value.2 ts' steps outcome)
    (counted : Counted e (e.handle step).value.2 (exitsOf [(step.recorded : RecordedEffect X)]) peaks)
    (exits : Tree.exits ts = exitsOf [(step.recorded : RecordedEffect X)] ++ Tree.exits ts')
    (peaked : Tree.peaks ts = peaks ++ Tree.peaks ts') :
    Exhausts e ts (step :: steps) outcome := by
  cases outcome with
  | error err => exact h
  | ok w =>
    obtain ⟨done, rest, reached⟩ := h
    refine ⟨done, ?_, ?_⟩
    · rw [exits, peaked]
      exact counted.trans rest
    · rw [exits, ← reached, List.map_cons, ← List.singleton_append, exitsOf_append]

omit [Resumable X S K] in
/-- A search that is done has been through the agenda. -/
theorem Exhausts.of_done {steps : List (Step X K)} {outcome : Result (Option Value)}
    (h : Exhausts e ts steps outcome) (done : (e.after steps).done = true) :
    Counted e (e.after steps) (Tree.exits ts) (Tree.peaks ts) ∧
      exitsOf (steps.map Step.recorded : List (RecordedEffect X)) = Tree.exits ts := by
  cases outcome with
  | error err => exact absurd (h.symm.trans done) Bool.false_ne_true
  | ok w => exact h.2

end Enumeration

/-! ### Along a run -/

namespace Run

open Enumeration

section Unfolds

variable {S : Type → Type} [Strategy X S] [Resumable X S K] {a : Action X S K} {t : Tree X}
  {fuel more n : Nat} {r q : Router X S K} {x : Result (Option Value)}

theorem goOn_zero (more n : Nat) (a : Action X S K) (r : Router X S K) :
    goOn 0 more n a r = none := by
  rw [goOn, advance]

/-- A run that has an outcome has come to the effect with which it goes on. -/
theorem exists_drive_of_goOn (level : Nat) {step : Step X K}
    (unfolds : (Action.perform step : Action X S K).Unfolds t)
    (run : goOn fuel more n (.perform step) r = some (x, q)) :
    ∃ step' es, (Action.perform step' : Action X S K).Unfolds t ∧
      drive more n step' { r with events := es } = some (x, q) ∧
      goOnMoments fuel more level n (.perform step) r =
        driveMoments more level n step' { r with events := es } := by
  cases fuel with
  | zero => simp [goOn_zero] at run
  | succ fuel =>
    rw [goOn_perform] at run
    exact ⟨step, r.events, unfolds, run, goOnMoments_perform step⟩

/-- A program with a tree fails, or comes to the effect at the root of its tree without having used
the router. -/
theorem goOn_of_unfolds (level : Nat) (h : a.Unfolds t) (run : goOn fuel more n a r = some (x, q)) :
    (∃ e, x = .error e ∧ goOnMoments fuel more level n a r = []) ∨
      ∃ step es, (Action.perform step : Action X S K).Unfolds t ∧
        drive more n step { r with events := es } = some (x, q) ∧
        goOnMoments fuel more level n a r = driveMoments more level n step { r with events := es } := by
  induction h generalizing fuel r with
  | exit v => exact .inr (exists_drive_of_goOn level (.exit v) run)
  | weight h => exact .inr (exists_drive_of_goOn level (.weight h) run)
  | draw h => exact .inr (exists_drive_of_goOn level (.draw h) run)
  | fail e =>
    cases fuel with
    | zero => simp [goOn_zero] at run
    | succ fuel =>
      rw [goOn_fail] at run
      cases run
      exact .inl ⟨e, rfl, goOnMoments_fail e⟩
  | display _ ih =>
    cases fuel with
    | zero => simp [goOn_zero] at run
    | succ fuel =>
      rw [goOn_display] at run
      rw [goOnMoments_display]
      exact ih run

/-- An inference that gives a result has gone on with its program, and what it gives is concluded
from the outcome and from what the effects have made of the strategy. -/
theorem goOn_of_infer {s : S K} {y : Result (Distribution X) × S K × Router X S K}
    (run : infer fuel s a r = some y) :
    ∃ more outcome q, fuel = more + 2 ∧ goOn more more 0 a (r.enter s).2 = some (outcome, q) ∧
      y = conclude (Handler.name (Strategy.start s).value)
        (told (Strategy.start s).value
          (ownSteps 1 (goOnMoments more more 1 0 a (r.enter s).2))) outcome
        (q.leave (r.enter s).1) := by
  cases fuel with
  | zero => simp [infer] at run
  | succ fuel =>
    obtain ⟨outcome, q, inner, concluded⟩ := conclude_of_infer run
    cases fuel with
    | zero => simp [complete] at inner
    | succ more =>
      rw [complete_succ] at inner
      rw [ownSteps_inferMoments_succ, completeMoments_succ] at concluded
      exact ⟨more, outcome, q, rfl, inner, concluded⟩

end Unfolds

variable [Scalar X] [Strategy X T]

/-- What an effect makes of a strategy that is a search with layers around it. -/
theorem told_search (ls : List (Layer X)) (e : Enumeration X K) (step : Step X K) :
    told (⟨ls, .enumeration e⟩ : Strategies X T K) [step] =
      ⟨ls.map (Layer.passed step (e.handle step).value.1),
        .enumeration (e.handle step).value.2⟩ := by
  rw [told_cons, told_nil, Layered.handle_eq]
  rfl

variable [Resumable X (Strategies X T) K] {fuel more n j i : Nat} {ls : List (Layer X)}
  {e : Enumeration X K} {t : Tree X} {ts : List (Tree X)} {r q : Router X (Strategies X T) K}
  {x : Result (Option Value)}

/-- A run that goes on with the tree in front of the agenda ends as its effects do. -/
theorem exhausts_goOn {a : Action X (Strategies X T) K}
    (effects : ∀ {step : Step X K} {r : Router X (Strategies X T) K},
      Serves i ⟨ls, .enumeration e⟩ r →
      (Action.perform step : Action X (Strategies X T) K).Unfolds t →
      drive more j step r = some (x, q) →
        Exhausts e (t :: ts) (ownSteps n (driveMoments more n j step r)) x)
    (serves : Serves i ⟨ls, .enumeration e⟩ r) (unfolds : a.Unfolds t) (going : e.done = false)
    (run : goOn fuel more j a r = some (x, q)) :
    Exhausts e (t :: ts) (ownSteps n (goOnMoments fuel more n j a r)) x := by
  rcases goOn_of_unfolds n unfolds run with ⟨err, rfl, moments⟩ | ⟨step, es, unfolds, run, moments⟩
  · rw [moments]
    exact going
  · rw [moments]
    exact effects (serves.events es) unfolds run

/-- A run that is halted has been through the agenda. -/
theorem exhausts_drive {step : Step X K} (serves : Serves i ⟨ls, .enumeration e⟩ r)
    (unfolds : (Action.perform step : Action X (Strategies X T) K).Unfolds t)
    (waiting : Waiting (Strategies X T) e.pending ts) (going : e.done = false)
    (run : drive fuel j step r = some (x, q)) :
    Exhausts e (t :: ts) (ownSteps n (driveMoments fuel n j step r)) x := by
  -- Every effect changes the search, its layers and the agenda, which are generalized with the run.
  induction fuel generalizing ls e t ts j step r with
  | zero => simp [drive] at run
  | succ fuel ih =>
    obtain ⟨answer, served⟩ := serves.dispatch step
    rw [told_search] at served
    have answer : (r.dispatch step).1 = (e.handle step).value.1 := by
      rw [answer, Layered.handle_eq]
      rfl
    cases handled : (e.handle step).value.1 with
    | error err =>
      rw [handled] at answer
      rw [drive_of_error answer] at run
      rw [driveMoments_of_not_resume (by simp [answer]), ownSteps_dispatch]
      cases run
      change (e.handle step).value.2.done = false
      rw [eq_of_handle_error handled, going]
    | ok resumption =>
      obtain ⟨ts', peaks, due, counted, exits, peaked⟩ := due_handle unfolds waiting going handled
      rw [handled] at answer
      cases due with
      | halt done =>
        rw [drive_of_halt answer] at run
        rw [driveMoments_of_not_resume (by simp [answer]), ownSteps_dispatch]
        cases run
        exact (exhausts_nil done none).cons counted exits peaked
      | resume unfolds' waiting' going' =>
        rw [drive_of_resume answer] at run
        rw [driveMoments_of_resume answer, ownSteps_dispatch]
        have rest := exhausts_goOn (n := n)
          (fun serves unfolds run => ih serves unfolds waiting' going' run) (served.events _) unfolds'
          going' run
        exact rest.cons counted exits peaked

/-! ### Inference -/

omit [Resumable X (Strategies X T) K] in
theorem start_search (ls : List (Layer X)) (e : Enumeration X K) :
    ∃ ls', (Strategy.start (⟨ls, .enumeration e⟩ : Strategies X T K)).value =
      ⟨ls', .enumeration (.fresh e.reportMarginal)⟩ := by
  rw [Layered.start_eq]
  exact ⟨_, rfl⟩

omit [Resumable X (Strategies X T) K] in
/-- Asking a search for its result takes nothing but the marginal out. -/
theorem conclude_search (ls : List (Layer X)) (e : Enumeration X K) (name : String)
    (outcome : Result (Option Value)) (r : Router X (Strategies X T) K) :
    ∃ m, (conclude name ⟨ls, .enumeration e⟩ outcome r).2.1 =
      ⟨ls, .enumeration { e with marginal := m }⟩ := by
  match outcome with
  | .error err => exact ⟨e.marginal, rfl⟩
  | .ok (some v) => exact ⟨e.marginal, rfl⟩
  | .ok none =>
    have asked : (conclude name (⟨ls, .enumeration e⟩ : Strategies X T K) (.ok none) r).2.1 =
        ⟨ls, .enumeration e.finish.value.2⟩ :=
      congrArg Prod.snd (Layered.finish_eq (⟨ls, .enumeration e⟩ : Strategies X T K))
    obtain ⟨m, finished⟩ := exists_finish e
    exact ⟨m, by rw [asked, finished]⟩

/-- An inference of a program with a tree, under a search with layers around it, has been through the
tree when its run is halted. -/
theorem exhausts_of_infer {a : Action X (Strategies X T) K} (unfolds : a.Unfolds t)
    {y : Result (Distribution X) × Strategies X T K × Router X (Strategies X T) K}
    (run : infer fuel ⟨ls, .enumeration e⟩ a r = some y) :
    ∃ outcome, Exhausts (.fresh e.reportMarginal) [t]
      (ownSteps 1 (inferMoments fuel 0 ⟨ls, .enumeration e⟩ a r)) outcome := by
  obtain ⟨more, outcome, q, rfl, inner, -⟩ := goOn_of_infer run
  have entered := serves_enter (⟨ls, .enumeration e⟩ : Strategies X T K) r
  obtain ⟨ls', started⟩ := start_search (T := T) ls e
  -- The agenda of a search that has just started is the tree of the program alone.
  rw [started] at entered
  rw [ownSteps_inferMoments_succ, completeMoments_succ]
  exact ⟨outcome, exhausts_goOn
    (fun serves unfolds run => exhausts_drive serves unfolds .nil rfl run) entered unfolds rfl inner⟩

end Run

end Posterior
