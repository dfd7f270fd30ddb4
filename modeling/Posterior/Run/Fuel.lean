import Posterior.Run

/-!
# Fuel

Fuel only bounds how long a run may take: once a run has an answer, more fuel gives the same answer.

## Main results

* `Run.advance_mono`, `Run.drive_mono`, `Run.complete_mono`, `Run.infer_mono`
-/

namespace Posterior.Run

variable {X : Type} {S : Type → Type} {K : Type} [Strategy X S] [Resumable X S K]

/-- One more unit of fuel keeps all answers that the given amount allows. -/
private structure Kept (X : Type) (S : Type → Type) (K : Type) [Strategy X S] [Resumable X S K]
    (fuel : Nat) : Prop where
  advance {a : Action X S K} {r : Router X S K} {x} :
    advance fuel a r = some x → advance (fuel + 1) a r = some x
  drive {n : Nat} {s : Step X K} {r : Router X S K} {x} :
    drive fuel n s r = some x → drive (fuel + 1) n s r = some x
  complete {a : Action X S K} {r : Router X S K} {x} :
    complete fuel a r = some x → complete (fuel + 1) a r = some x
  infer {s : S K} {a : Action X S K} {r : Router X S K} {x} :
    infer fuel s a r = some x → infer (fuel + 1) s a r = some x

private theorem kept (fuel : Nat) : Kept X S K fuel := by
  induction fuel with
  | zero =>
    exact ⟨by simp [advance], by simp [drive], by simp [complete], by simp [infer]⟩
  | succ fuel ih =>
    refine ⟨?_, ?_, ?_, ?_⟩
    · intro a r x h
      cases a with
      | perform step => exact h
      | fail e => exact h
      | display v k => exact ih.advance h
      | probe k => exact ih.advance h
      | dispatch step k => exact ih.advance h
      | infer s p k =>
        rw [advance] at h ⊢
        cases run : infer fuel s (.start p) r with
        | none => simp [run] at h
        | some out =>
          rw [run] at h
          rw [ih.infer run]
          exact ih.advance h
      | run p k =>
        rw [advance] at h ⊢
        cases run : complete fuel (.start p) r with
        | none => simp [run] at h
        | some out =>
          rw [run] at h
          rw [ih.complete run]
          exact ih.advance h
      | drive step k =>
        rw [advance] at h ⊢
        cases run : drive fuel 0 step r with
        | none => simp [run] at h
        | some out =>
          rw [run] at h
          rw [ih.drive run]
          exact ih.advance h
    · intro n s r x h
      rw [drive] at h ⊢
      match answered : r.dispatch s with
      | (.error e, r') => simpa [answered] using h
      | (.ok (.halt v), r') => simpa [answered] using h
      | (.ok (.resume k v), r') =>
        simp only [answered] at h ⊢
        cases run : advance fuel (Resumable.resume k v) (r'.report (.resumed v)) with
        | none => simp [run] at h
        | some out =>
          rw [run] at h
          rw [ih.advance run]
          match out with
          | (.error e, r'') => exact h
          | (.ok step, r'') => exact ih.drive h
    · intro a r x h
      rw [complete] at h ⊢
      cases run : advance fuel a r with
      | none => simp [run] at h
      | some out =>
        rw [run] at h
        rw [ih.advance run]
        match out with
        | (.error e, r'') => exact h
        | (.ok step, r'') => exact ih.drive h
    · intro s a r x h
      simp only [infer] at h ⊢
      split at h
      · simp at h
      · next run =>
        rw [ih.complete run]
        exact h

/-- More fuel keeps the next effect of a computation. -/
theorem advance_mono {fuel more : Nat} (le : fuel ≤ more) {a : Action X S K} {r : Router X S K} {x}
    (h : advance fuel a r = some x) : advance more a r = some x := by
  induction le with
  | refl => exact h
  | step _ ih => exact (kept _).advance ih

/-- More fuel keeps the outcome of driving an effect. -/
theorem drive_mono {fuel more : Nat} (le : fuel ≤ more) {n : Nat} {s : Step X K}
    {r : Router X S K} {x} (h : drive fuel n s r = some x) : drive more n s r = some x := by
  induction le with
  | refl => exact h
  | step _ ih => exact (kept _).drive ih

/-- More fuel keeps the outcome of a computation. -/
theorem complete_mono {fuel more : Nat} (le : fuel ≤ more) {a : Action X S K} {r : Router X S K} {x}
    (h : complete fuel a r = some x) : complete more a r = some x := by
  induction le with
  | refl => exact h
  | step _ ih => exact (kept _).complete ih

/-- More fuel keeps the outcome of an inference. -/
theorem infer_mono {fuel more : Nat} (le : fuel ≤ more) {s : S K} {a : Action X S K}
    {r : Router X S K} {x} (h : infer fuel s a r = some x) : infer more s a r = some x := by
  induction le with
  | refl => exact h
  | step _ ih => exact (kept _).infer ih

end Posterior.Run
