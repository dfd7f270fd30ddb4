import Posterior.Proofs.Double.LogMasses
import Posterior.Proofs.Tally
import Posterior.Proofs.Violations

/-!
# Scores that make sense

The score of a path is the logarithm of its mass: a finite number, or minus infinity where there is
no mass. A weight that is neither is turned down. What a choice adds to the score of a path is not
looked at, and neither is any sum, so a search makes sense for just as long as the sums that it
forms do. Up to the first that does not, every score in it is a log-mass, and enumeration finds no
mass exactly if no path has ended with any. Scores are doubles here: what the marginal makes of
log-masses stays finite however large they are.

## Main definitions

* `Enumeration.WellScored` — all that a search holds are log-masses
* `Enumeration.Sensible` — so are all scores that effects give to paths

## Main results

* `Enumeration.wellScored_handle_iff` — what an effect does to a search that makes sense
* `Run.infer_scores` — the scores during an inference, and what it means that there is no mass
-/

namespace Posterior

open Scalar LogDouble

variable {X : Type} {T : Type → Type} {K : Type} [Scalar X] {f : Elementary}

/-! ### Mass in a marginal -/

namespace Marginal

variable (ranges : f.InRange) {v : Value} {l : LogDouble f} {entries : List (Value × LogDouble f)}

include ranges

/-- Adding a log-mass to a value leaves log-masses, and there is mass if there was or it is some. -/
theorem isLogMass_insert (hl : IsLogMass l) (h : ∀ e ∈ entries, IsLogMass e.2) :
    (∀ e ∈ insert v l entries, IsLogMass e.2) ∧
      ((∃ e ∈ insert v l entries, isFinite e.2 = true) ↔
        (∃ e ∈ entries, isFinite e.2 = true) ∨ isFinite l = true) := by
  induction entries with
  | nil =>
    have none : IsLogMass (negInf : LogDouble f) := isLogMass_negInf
    have sum := isFinite_logAddExp_iff ranges none hl
    rw [isFinite_negInf] at sum
    simpa [insert, sum] using isLogMass_logAddExp ranges none hl
  | cons d rest ih =>
    obtain ⟨u, m⟩ := d
    obtain ⟨first, others⟩ := List.forall_mem_cons.1 h
    rw [insert]
    split
    · have sum := isFinite_logAddExp_iff ranges first hl
      refine ⟨List.forall_mem_cons.2 ⟨isLogMass_logAddExp ranges first hl, others⟩, ?_⟩
      rw [List.exists_mem_cons_iff, List.exists_mem_cons_iff, sum]
      exact or_right_comm
    · obtain ⟨kept, exists_iff⟩ := ih others
      refine ⟨List.forall_mem_cons.2 ⟨first, kept⟩, ?_⟩
      rw [List.exists_mem_cons_iff, List.exists_mem_cons_iff, exists_iff, or_assoc]

theorem isFinite_foldl_iff {total : LogDouble f} (ht : IsLogMass total)
    (h : ∀ e ∈ entries, IsLogMass e.2) :
    isFinite (entries.foldl (fun total e => logAddExp total e.2) total) = true ↔
      isFinite total = true ∨ ∃ e ∈ entries, isFinite e.2 = true := by
  induction entries generalizing total with
  | nil => simp
  | cons e entries ih =>
    obtain ⟨first, others⟩ := List.forall_mem_cons.1 h
    rw [List.foldl_cons, ih (isLogMass_logAddExp ranges ht first) others,
      isFinite_logAddExp_iff ranges ht first, List.exists_mem_cons_iff, or_assoc]

/-- A marginal of log-masses cannot be normalized exactly if none of its values has any mass. -/
theorem normalized_eq_zeroMass_iff {m : Marginal (LogDouble f)}
    (h : ∀ e ∈ m.entries, IsLogMass e.2) :
    m.normalized = .error .zeroMass ↔ ¬∃ e ∈ m.entries, isFinite e.2 = true := by
  have total := isFinite_foldl_iff ranges isLogMass_negInf h
  rw [isFinite_negInf] at total
  change isFinite m.logTotal = true ↔ _ at total
  rw [normalized]
  split
  · next finite =>
    have mass := total.1 finite
    simpa using mass
  · next nothing => simpa [total] using nothing

end Marginal

/-! ### Searches -/

namespace Enumeration

/-- The score of the path in progress, those of the paths that wait and all that the marginal holds
are log-masses. -/
structure WellScored (e : Enumeration X K) : Prop where
  score : IsLogMass e.score
  pending : ∀ alt ∈ e.pending, IsLogMass alt.score
  marginal : ∀ entry ∈ e.marginal.entries, IsLogMass entry.2

/-- The scores that an effect gives to paths, if it is not turned down. -/
def assigned (e : Enumeration X K) : Step X K → List X
  | .draw _ d params =>
    match Tree.children d params e.score with
    | .ok cs => cs.map Prod.snd
    | .error _ => []
  | .weight _ l => if acceptable l then [e.score + l] else []
  | .exit _ => []

/-- All scores that effects give to paths are log-masses. -/
def Sensible (e : Enumeration X K) : List (Step X K) → Prop
  | [] => True
  | step :: steps =>
    (∀ x ∈ e.assigned step, IsLogMass x) ∧ Sensible (e.handle step).value.2 steps

/-- The scores of the paths that effects end. -/
def endings (e : Enumeration X K) : List (Step X K) → List X
  | [] => []
  | .exit v :: steps => e.score :: endings (e.handle (.exit v)).value.2 steps
  | step :: steps => endings (e.handle step).value.2 steps

omit [Scalar X] in
theorem next_marginal (e : Enumeration X K) : e.next.value.2.marginal = e.marginal := by
  cases pending : e.pending with
  | nil => rw [next_of_nil pending]
  | cons alt rest => rw [next_of_cons pending]

/-- Taking the next path only moves its score. -/
theorem wellScored_next_iff {e : Enumeration X K} (score : IsLogMass e.score) :
    e.next.value.2.WellScored ↔ e.WellScored := by
  cases pending : e.pending with
  | nil =>
    rw [next_of_nil pending]
    exact ⟨fun h => ⟨h.score, h.pending, h.marginal⟩, fun h => ⟨h.score, h.pending, h.marginal⟩⟩
  | cons alt rest =>
    rw [next_of_cons pending]
    constructor
    · intro h
      refine ⟨score, ?_, h.marginal⟩
      rw [pending]
      exact List.forall_mem_cons.2 ⟨h.score, h.pending⟩
    · intro h
      have waiting := h.pending
      rw [pending] at waiting
      obtain ⟨first, others⟩ := List.forall_mem_cons.1 waiting
      exact ⟨first, others, h.marginal⟩

theorem endings_cons (e : Enumeration X K) (step : Step X K) (steps : List (Step X K)) :
    e.endings (step :: steps) = e.endings [step] ++ (e.handle step).value.2.endings steps := by
  cases step <;> rfl

variable {e : Enumeration (LogDouble f) K} {step : Step (LogDouble f) K}
  {steps : List (Step (LogDouble f) K)}

theorem wellScored_fresh (report : Bool) :
    (fresh report : Enumeration (LogDouble f) K).WellScored where
  score := .inl isFinite_zero
  pending alt halt := by cases halt
  marginal entry hentry := by cases hentry

/-- A search that makes sense still does after an effect exactly if the effect has given log-masses
to its paths. -/
theorem wellScored_handle_iff (ranges : f.InRange) (h : e.WellScored) :
    (e.handle step).value.2.WellScored ↔ ∀ x ∈ e.assigned step, IsLogMass x := by
  cases step with
  | draw k d params =>
    cases children : Tree.children d params e.score with
    | error err =>
      have failed : split k d params e.score = .error err := by rw [split_eq, children]; rfl
      rw [handle_draw_of_error failed]
      simpa [assigned, children] using h
    | ok cs =>
      have found : split k d params e.score = .ok (cs.map (alternative k)) := by
        rw [split_eq, children]; rfl
      have score : IsLogMass (e.forked (cs.map (alternative k))).score := h.score
      rw [handle_draw_of_ok found, wellScored_next_iff score]
      simp only [assigned, children]
      constructor
      · intro forked x hx
        obtain ⟨c, hc, rfl⟩ := List.mem_map.1 hx
        refine forked.pending (alternative k c) (List.mem_append_left _ ?_)
        exact List.mem_reverse.2 (List.mem_map_of_mem hc)
      · intro given
        refine ⟨h.score, fun alt halt => ?_, h.marginal⟩
        rcases List.mem_append.1 halt with halt | halt
        · obtain ⟨c, hc, rfl⟩ := List.mem_map.1 (List.mem_reverse.1 halt)
          exact given c.2 (List.mem_map_of_mem hc)
        · exact h.pending alt halt
  | weight k l =>
    cases fine : acceptable l with
    | false =>
      rw [handle_weight_of_not_acceptable fine]
      simpa [assigned, fine] using h
    | true =>
      rw [handle_weight_of_acceptable fine]
      simp only [assigned, fine, if_true, List.forall_mem_singleton]
      exact ⟨fun weighted => weighted.score, fun given => ⟨given, h.pending, h.marginal⟩⟩
  | exit v =>
    have ended : (e.ended v).WellScored :=
      ⟨h.score, h.pending, (Marginal.isLogMass_insert ranges h.score h.marginal).1⟩
    have score : IsLogMass (e.ended v).score := h.score
    rw [handle_exit, wellScored_next_iff score]
    simpa [assigned] using ended

/-- The search makes sense after each of the effects exactly if all scores that they give do. -/
theorem forall_wellScored_after_iff (ranges : f.InRange) (h : e.WellScored) :
    (∀ before, before <+: steps → (e.after before).WellScored) ↔ e.Sensible steps := by
  induction steps generalizing e with
  | nil =>
    refine ⟨fun _ => trivial, fun _ before start => ?_⟩
    rw [List.prefix_nil.1 start]
    exact h
  | cons step steps ih =>
    constructor
    · intro all
      -- The state after the first effect is one of those that make sense, and so are all after it.
      have one := all [step] (List.cons_prefix_cons.2 ⟨rfl, List.nil_prefix⟩)
      have given := (wellScored_handle_iff ranges h).1 one
      refine ⟨given, (ih one).1 fun before start => ?_⟩
      exact all (step :: before) (List.cons_prefix_cons.2 ⟨rfl, start⟩)
    · rintro ⟨given, sensible⟩ before start
      have one := (wellScored_handle_iff ranges h).2 given
      rcases List.prefix_cons_iff.1 start with rfl | ⟨rest, rfl, later⟩
      · exact h
      · exact (ih one).2 sensible rest later

/-- Only the end of a path touches the marginal. -/
theorem exists_mass_handle (ranges : f.InRange) (h : e.WellScored) :
    (∃ entry ∈ (e.handle step).value.2.marginal.entries, isFinite entry.2 = true) ↔
      (∃ entry ∈ e.marginal.entries, isFinite entry.2 = true) ∨
        ∃ x ∈ e.endings [step], isFinite x = true := by
  cases step with
  | draw k d params =>
    cases found : split k d params e.score with
    | error err => simp [handle_draw_of_error found, endings]
    | ok found' => simp [handle_draw_of_ok found, next_marginal, forked, endings]
  | weight k l =>
    cases fine : acceptable l with
    | false => simp [handle_weight_of_not_acceptable fine, endings]
    | true => simp [handle_weight_of_acceptable fine, endings]
  | exit v =>
    rw [handle_exit]
    simp only [next_marginal, endings, List.mem_singleton, exists_eq_left]
    exact (Marginal.isLogMass_insert ranges h.score h.marginal).2

/-- There is mass in the marginal exactly if there was before or a path has ended with some. -/
theorem exists_mass_after_iff (ranges : f.InRange) (h : e.WellScored)
    (sensible : e.Sensible steps) :
    (∃ entry ∈ (e.after steps).marginal.entries, isFinite entry.2 = true) ↔
      (∃ entry ∈ e.marginal.entries, isFinite entry.2 = true) ∨
        ∃ x ∈ e.endings steps, isFinite x = true := by
  induction steps generalizing e with
  | nil => simp [after, endings]
  | cons step steps ih =>
    obtain ⟨given, sensible⟩ := sensible
    rw [after_cons, ih ((wellScored_handle_iff ranges h).2 given) sensible,
      exists_mass_handle ranges h, endings_cons e step steps, or_assoc]
    simp only [List.mem_append, or_and_right, exists_or]

/-- A search that has come to its end in good order finds no mass exactly if no path has ended with
any. -/
theorem finish_eq_zeroMass_iff (ranges : f.InRange) {report : Bool}
    (sensible : (fresh report : Enumeration (LogDouble f) K).Sensible steps)
    (empty : ((fresh report : Enumeration (LogDouble f) K).after steps).pending = []) :
    ((fresh report : Enumeration (LogDouble f) K).after steps).finish.value.1 = .error .zeroMass ↔
      ∀ x ∈ (fresh report : Enumeration (LogDouble f) K).endings steps, isFinite x = false := by
  have fresh := wellScored_fresh (f := f) (K := K) report
  have scored := (forall_wellScored_after_iff ranges fresh).2 sensible steps List.prefix_rfl
  have mass := exists_mass_after_iff ranges fresh sensible
  have nothing :
      ¬∃ entry ∈ (Enumeration.fresh report : Enumeration (LogDouble f) K).marginal.entries,
        isFinite entry.2 = true := by
    rintro ⟨entry, hentry, -⟩
    cases hentry
  have normalized := Marginal.normalized_eq_zeroMass_iff ranges scored.marginal
  rw [mass, or_iff_right nothing] at normalized
  rw [finish_of_empty empty, map_eq_error_iff, normalized]
  simp

end Enumeration

/-! ### Inference -/

namespace Run

/-- The effects that the search of an inference is told of, in order. -/
def searched [Strategy X T] [Resumable X (Strategies X T) K] (fuel : Nat) (ls : List (Layer X))
    (e₀ : Enumeration X K) (a : Action X (Strategies X T) K) (r : Router X (Strategies X T) K) : List (Step X K) :=
  ownSteps 1 (inferMoments fuel 0 ⟨ls, .enumeration e₀⟩ a r)

/-- Let scores be doubles, and the two functions that sums of masses are computed with in their
ranges. The states of a search are those after the first so many of its effects. All that they hold
are log-masses if and only if all scores that the effects give to paths are; an effect that gives a
path another score is not turned down for it. Up to there an inference whose run is halted finds no
mass if and only if no path has ended with any. -/
theorem infer_scores [Strategy (LogDouble f) T]
    [Resumable (LogDouble f) (Strategies (LogDouble f) T) K] (ranges : f.InRange) (fuel : Nat)
    (ls : List (Layer (LogDouble f))) (e₀ : Enumeration (LogDouble f) K)
    (a : Action (LogDouble f) (Strategies (LogDouble f) T) K)
    (r : Router (LogDouble f) (Strategies (LogDouble f) T) K) :
    (∀ before m after,
      inferMoments (fuel + 1) 0 ⟨ls, .enumeration e₀⟩ a r = before ++ m :: after →
      ∃ ls' told, told <+: searched (fuel + 1) ls e₀ a r ∧ m.strategy? r.cells.size =
        some ⟨ls', .enumeration ((Enumeration.fresh e₀.reportMarginal).after told)⟩) ∧
    ((∀ told, told <+: searched (fuel + 1) ls e₀ a r →
        ((Enumeration.fresh e₀.reportMarginal).after told).WellScored) ↔
      (Enumeration.fresh e₀.reportMarginal).Sensible (searched (fuel + 1) ls e₀ a r)) ∧
    ((Enumeration.fresh e₀.reportMarginal).Sensible (searched (fuel + 1) ls e₀ a r) →
      ∀ d t q, infer (fuel + 1) ⟨ls, .enumeration e₀⟩ a r = some (d, t, q) →
        ∃ outcome p, complete fuel a (r.enter ⟨ls, .enumeration e₀⟩).2 = some (outcome, p) ∧
          match outcome with
          | .error e => d = .error e
          | .ok _ => d = .error .zeroMass ↔
              ∀ x ∈ (Enumeration.fresh e₀.reportMarginal).endings (searched (fuel + 1) ls e₀ a r),
                isFinite x = false) := by
  refine ⟨fun before m after split => ?_, ?_, fun sensible d t q run => ?_⟩
  · obtain ⟨ls', told, -⟩ := exists_told_start (T := T) ls e₀ (ownSteps 1 before)
    refine ⟨ls', ownSteps 1 before, ?_, (strategy?_of_moments split).trans (congrArg some told)⟩
    rw [searched, split, ownSteps_append]
    exact List.prefix_append ..
  · exact Enumeration.forall_wellScored_after_iff ranges
      (Enumeration.wellScored_fresh e₀.reportMarginal)
  · obtain ⟨outcome, p, inner, concluded⟩ := conclude_of_infer run
    refine ⟨outcome, p, inner, ?_⟩
    obtain ⟨ls', told, -⟩ := exists_told_start (T := T) ls e₀
      (ownSteps 1 (inferMoments (fuel + 1) 0 ⟨ls, .enumeration e₀⟩ a r))
    have own : (⟨ls, .enumeration e₀⟩ : Strategies (LogDouble f) T K).core.IsOwn := trivial
    rw [told] at concluded
    match outcome with
    | .error e => exact (Prod.mk.inj concluded).1
    | .ok w =>
      -- The strategy that is asked is the one that the effects have made, and no path waits.
      obtain ⟨rfl, settled⟩ := settled_of_infer own inner
      have serves := ((historical fuel).complete (n := 1)
        (serves_enter (⟨ls, .enumeration e₀⟩ : Strategies (LogDouble f) T K) r)).2 _ inner
      rw [strategyAt_of_serves serves, ← ownSteps_inferMoments_succ, told] at settled
      obtain ⟨rfl, -⟩ := Prod.mk.inj concluded
      rw [Layered.finish_eq]
      exact Enumeration.finish_eq_zeroMass_iff ranges sensible settled

end Run

/-- Functions that are as good as the exponential and the logarithm where they are used below: at
zero and far under it, and at zero and at one. -/
def Elementary.coarse : Elementary where
  exp x := if x == 0 then 1 else 0
  ln1p x := if x == 1 then 0.6931471805599453 else 0

theorem Elementary.inRange_coarse : coarse.InRange where
  exp x _ := by
    unfold coarse
    dsimp only
    split
    · decide +kernel
    · decide +kernel
  ln1p x _ _ := by
    unfold coarse
    dsimp only
    split
    · decide +kernel
    · decide +kernel

/-- Doubles with these functions. -/
abbrev Coarse : Type := LogDouble .coarse

/-- A choice of four values: half of the mass is on each side, next to nothing is on the third, and
nothing at all on the last. -/
def Distribution.uneven : Distribution Coarse where
  name := "uneven"
  score? := some fun _ v => .ok <| match v with
    | .bool _ => (-0.6931471805599453 : Float)
    | .unit => (-1000 : Float)
    | _ => (-1 / 0 : Float)
  support? := some fun _ => .ok [.bool true, .bool false, .unit, .int 0]

/-- A search for the kind of the value that is chosen, which is one kind for both sides. -/
def Tree.sorting : Tree Coarse := .draw .uneven [] fun v => .exit (.str v.kind)

/-- The effects that the search is told of. -/
def Tree.sorted : List (Step Coarse (Tree.Rest Coarse)) :=
  [.draw ⟨fun v => .exit (.str v.kind)⟩ .uneven [], .exit (.str "int"), .exit (.str "unit"),
    .exit (.str "bool"), .exit (.str "bool")]

/-- A choice whose only value has a score that is not a number. -/
def Tree.unscored : Tree Float :=
  .draw { name := "unscored"
          score? := some fun _ _ => .ok (0 / 0)
          support? := some fun _ => .ok [.bool true] } [] .exit

/-- Two constraints that are finite, but whose sum is too large to be. -/
def Tree.overflowing : Tree Float := .weight 1e308 (.weight 1e308 (.exit .unit))

namespace Run

/-- The two sides add up to all of the mass, and to that what is on the third value adds nothing. -/
theorem infer_scores_sorting : Elementary.coarse.InRange ∧
    searched (T := NoOther Coarse) 8 [] (.fresh false) Tree.sorting.program
      { source := .ofWords #[] } = Tree.sorted ∧
    (∀ told, told <+: Tree.sorted →
      ((Enumeration.fresh false : Enumeration Coarse (Tree.Rest Coarse)).after told).WellScored) ∧
    (((Enumeration.fresh false : Enumeration Coarse (Tree.Rest Coarse)).after
      Tree.sorted).marginal.logMass? (.str "bool")).any (eq · zero) = true ∧
    ∃ d t q, infer 8 (⟨[], .enumeration (.fresh false)⟩ :
          Strategies Coarse (NoOther Coarse) (Tree.Rest Coarse))
        Tree.sorting.program { source := .ofWords #[] } = some (d, t, q) ∧
      d ≠ .error .zeroMass := by
  obtain ⟨-, wellScored, massless⟩ := infer_scores (T := NoOther Coarse) Elementary.inRange_coarse 7
    [] (.fresh false) Tree.sorting.program { source := .ofWords #[] }
  have performed : searched (T := NoOther Coarse) 8 [] (.fresh false) Tree.sorting.program
      { source := .ofWords #[] } = Tree.sorted := by
    with_unfolding_all rfl
  rw [performed] at wellScored massless
  have sensible : (Enumeration.fresh false : Enumeration Coarse (Tree.Rest Coarse)).Sensible
      Tree.sorted := by
    refine ⟨fun x hx => ?_, by simp [Enumeration.assigned], by simp [Enumeration.assigned],
      by simp [Enumeration.assigned], by simp [Enumeration.assigned], trivial⟩
    have given : ((Enumeration.fresh false : Enumeration Coarse (Tree.Rest Coarse)).assigned
        (.draw ⟨fun v => .exit (.str v.kind)⟩ .uneven [])).all
          (fun x => isFinite x || eq x negInf) = true := by
      decide +kernel
    exact Bool.or_eq_true_iff.1 (List.all_eq_true.1 given x hx)
  have ended : ((Enumeration.fresh false : Enumeration Coarse (Tree.Rest Coarse)).endings
      Tree.sorted).any isFinite = true := by
    decide +kernel
  refine ⟨Elementary.inRange_coarse, performed, wellScored.2 sensible, by decide +kernel, ?_⟩
  obtain ⟨⟨d, t, q⟩, run⟩ := Option.isSome_iff_exists.1
    (show (infer 8 (⟨[], .enumeration (.fresh false)⟩ :
        Strategies Coarse (NoOther Coarse) (Tree.Rest Coarse)) Tree.sorting.program
          { source := .ofWords #[] }).isSome by decide +kernel)
  refine ⟨d, t, q, run, ?_⟩
  obtain ⟨outcome, p, inner, concluded⟩ := massless sensible d t q run
  have halted : (complete 7 Tree.sorting.program (Router.enter (⟨[], .enumeration (.fresh false)⟩ :
      Strategies Coarse (NoOther Coarse) (Tree.Rest Coarse)) { source := .ofWords #[] }).2).map
        (fun x => x.1.isOk) = some true := by
    decide +kernel
  rw [inner] at halted
  match outcome with
  | .error e => cases halted
  | .ok w =>
    rintro rfl
    obtain ⟨x, hx, finite⟩ := List.any_eq_true.1 ended
    exact Bool.false_ne_true ((concluded.1 rfl x hx).symm.trans finite)

/-- Whether an inference has found no mass although a path has ended, with a score of that kind. -/
def massless (kind : X → Bool) :
    Option (Result (Distribution X) × Strategies X T K × Router X (Strategies X T) K) → Bool
  | some (.error .zeroMass, t, _) =>
    match t.search? with
    | some e => e.paths == 1 && kind e.score
    | none => false
  | _ => false

/-- The score that the choice gives to the path is not a number, and two constraints that are
accepted add up to plus infinity. Neither is turned down. -/
theorem massless_of_meaningless :
    massless isNaN (infer 20 (.enumeration {} : Strategies Float (NoOther Float) (Tree.Rest Float))
      Tree.unscored.program { source := .ofWords #[] }) = true ∧
    massless (fun x => eq x posInf)
      (infer 20 (.enumeration {} : Strategies Float (NoOther Float) (Tree.Rest Float))
        Tree.overflowing.program { source := .ofWords #[] }) = true := by
  decide +kernel

end Run

end Posterior
