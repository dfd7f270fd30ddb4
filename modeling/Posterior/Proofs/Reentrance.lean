import Posterior.Proofs.Failing
import Posterior.Proofs.Moments
import Posterior.Proofs.Transparency

/-!
# Handlers are never entered twice

A handler that receives an effect while it is at work refuses it. The handlers of this library never
do anything but answer: they neither resume a continuation nor perform an effect of their own, so
whoever gets control finds them free. A program may then forward effects itself, run and infer other
programs, to any depth: no effect is refused for being one too many.

The one way to see that failure all the same is to draw from a distribution whose own function
returns it.

## Main definitions

* `Step.Raises` — the failures that come out of the distribution of an effect
* `Builtin.IsOwn` — the strategies of this library
* `Router.Idle` — no handler is at work or held

## Main results

* `Layered.raises_of_handle` — the strategies of this library add no failure of the protocol between
  programs and handlers
* `Run.idle_throughout` — nothing is refused during a run that starts while no handler is held
-/

namespace Posterior

variable {X : Type} {S T : Type → Type} {K : Type}

/-! ### Failures that come out of a distribution -/

/-- A failure that is about the order of calls between programs and handlers. -/
def Failure.IsProtocol : Failure → Prop
  | reentrant _ => True
  | protocolViolation _ => True
  | _ => False

/-- One of the functions of the distribution fails in that way. -/
def Distribution.Raises (d : Distribution X) (params : List Value) (e : Failure) : Prop :=
  (∃ source, (d.sample params source).1 = .error e) ∨ d.support params = .error e ∨
    ∃ v, d.score params v = .error e

/-- The effect is a choice whose distribution fails in that way. -/
def Step.Raises (step : Step X K) (e : Failure) : Prop :=
  match step with
  | .draw _ d params => d.Raises params e
  | _ => False

section Raises

variable {e : Failure} {step : Step X K}

theorem Sampler.raises_of_handle {h : Sampler X K} (failed : (h.handle step).1 = .error e)
    (protocol : e.IsProtocol) : step.Raises e := by
  cases step with
  | draw k d params =>
    change (d.sample params h.source).1.map _ = .error e at failed
    exact .inl ⟨h.source, map_eq_error_iff.1 failed⟩
  | weight k l =>
    cases failed
    exact protocol.elim
  | exit v => cases failed

variable [Scalar X]

theorem ForwardSampling.raises_of_handle {h : ForwardSampling X K}
    (failed : (h.handle step).value.1 = .error e) (protocol : e.IsProtocol) : step.Raises e := by
  cases step with
  | draw k d params =>
    rw [ForwardSampling.handle] at failed
    split at failed
    · next e' source drawn =>
      obtain rfl : e' = e := Except.error.inj failed
      exact .inl ⟨h.source, by rw [drawn]⟩
    · cases failed
  | weight k l =>
    cases failed
    exact protocol.elim
  | exit v => cases failed

/-- What a search needs and does not find is no matter of protocol; the support or a score is what
fails. -/
theorem Enumeration.raises_of_handle {s : Enumeration X K}
    (failed : (s.handle step).value.1 = .error e) (protocol : e.IsProtocol) : step.Raises e := by
  cases Enumeration.fails_of_handle failed with
  | noSupport | noScore | weight => exact protocol.elim
  | support _ _ failed => exact .inr (.inl failed)
  | score _ _ _ failed => exact .inr (.inr ⟨_, failed⟩)

/-- The strategies of this library, not one of another family. -/
def Builtin.IsOwn : Builtin X T K → Prop
  | enumeration _ => True
  | sampling _ => True
  | other _ => False

omit [Scalar X] in
theorem Builtin.isOwn_noOther (s : Builtin X (NoOther X) K) : s.IsOwn := by
  cases s with
  | enumeration | sampling => trivial
  | other s => nomatch s

variable [Strategy X T]

theorem Builtin.raises_of_handle {s : Builtin X T K} (own : s.IsOwn) {ambient : Ambient X K}
    (failed : (Handler.handle ambient step s).value.1 = .error e) (protocol : e.IsProtocol) :
    step.Raises e := by
  cases s with
  | enumeration s => exact Enumeration.raises_of_handle failed protocol
  | sampling s => exact ForwardSampling.raises_of_handle failed protocol
  | other s => exact own.elim

/-- A strategy of this library, with any layers around it, fails with such a failure only if that
comes out of the distribution of the choice. -/
theorem Layered.raises_of_handle {s : Strategies X T K} (own : s.core.IsOwn)
    {ambient : Ambient X K} (failed : (Handler.handle ambient step s).value.1 = .error e)
    (protocol : e.IsProtocol) : step.Raises e := by
  rw [Layered.handle_eq] at failed
  exact Builtin.raises_of_handle own failed protocol

theorem Installed.raises_of_handle {h : Installed X (Strategies X (NoOther X)) K}
    {ambient : Ambient X K} (failed : (h.handle ambient step).value.1 = .error e)
    (protocol : e.IsProtocol) : step.Raises e := by
  cases h with
  | strategy s => exact Layered.raises_of_handle s.core.isOwn_noOther failed protocol
  | sampler h => exact Sampler.raises_of_handle failed protocol

end Raises

/-! ### Routers whose handlers are free -/

/-- No handler in use is at work, or held by somebody. -/
def Router.Idle (r : Router X S K) : Prop := ∀ c ∈ r.cells, c.busy = false

/-- What a run does to a router leaves the handlers free that were. -/
theorem Router.Frame.idle {r r' : Router X S K} (h : r.Frame r') (idle : r.Idle) : r'.Idle := by
  intro c hc
  obtain ⟨i, held⟩ := Array.mem_iff_getElem?.1 hc
  have same := h.busy i
  rw [held] at same
  cases before : r.cells[i]? with
  | none => simp [before] at same
  | some d =>
    rw [before] at same
    have busy : c.busy = d.busy := Option.some.inj same
    rw [busy]
    exact idle d (Array.mem_of_getElem? before)

/-- A router whose handlers are free refuses nothing. -/
theorem Router.Idle.raises_of_dispatch [Scalar X] {r : Router X (Strategies X (NoOther X)) K}
    (idle : r.Idle) {step : Step X K} {e : Failure} (failed : (r.dispatch step).1 = .error e)
    (protocol : e.IsProtocol) : step.Raises e := by
  cases active : r.current with
  | none =>
    unfold dispatch at failed
    rw [active] at failed
    exact Sampler.raises_of_handle failed protocol
  | some ic =>
    obtain ⟨i, c⟩ := ic
    have held := (current_eq_some_iff.1 active).2
    obtain ⟨es, after⟩ :=
      dispatch_of_free active (idle c (Array.mem_of_getElem? held)) step
    rw [after] at failed
    exact Installed.raises_of_handle failed protocol

namespace Run

theorem invariant_idle [Strategy X S] :
    Invariant fun _ (r : Router X S K) => r.Idle where
  events _ idle := idle
  dispatch {_ r} step idle := (Router.Frame.dispatch r step).idle idle
  enter {_ r} s idle := by
    intro c hc
    rw [Router.enter_cells, Array.mem_push] at hc
    rcases hc with hc | rfl
    · exact idle c hc
    · rfl

variable [Scalar X] [Resumable X (Strategies X (NoOther X)) K]

/-- Under the handlers of this library, a run that starts while none of them is held finds none of
them held whenever its programs or its strategies make use of the router, and leaves none of them
held, however it ends. So no effect is ever refused because its handler is at work; an effect fails
in that way only if the distribution that it draws from does. Programs may forward effects, and run,
drive and infer other programs, wherever they like. -/
theorem idle_throughout (fuel n j : Nat) (s : Strategies X (NoOther X) K)
    (a : Action X (Strategies X (NoOther X)) K) (step : Step X K)
    {r : Router X (Strategies X (NoOther X)) K} (idle : r.Idle) :
    (∀ m, m ∈ advanceMoments fuel n a r ∨ m ∈ driveMoments fuel n j step r ∨
        m ∈ completeMoments fuel n a r ∨ m ∈ inferMoments fuel n s a r →
      m.router.Idle ∧ ∀ forwarded, m.use = .dispatch forwarded →
        (m.router.dispatch forwarded).2.Idle ∧
        ∀ name, (m.router.dispatch forwarded).1 = .error (.reentrant name) →
          forwarded.Raises (.reentrant name)) ∧
    (∀ x, advance fuel a r = some x → x.2.Idle) ∧
    (∀ x, drive fuel j step r = some x → x.2.Idle) ∧
    (∀ x, complete fuel a r = some x → x.2.Idle) ∧
    (∀ x, infer fuel s a r = some x → x.2.2.Idle) := by
  -- No transition of the router leaves a handler busy, so being idle is an invariant of all runs.
  have found := moments_of_invariant (S := Strategies X (NoOther X)) (K := K) invariant_idle fuel
  have kept := related_of_preserved (S := Strategies X (NoOther X)) (K := K) preserved_frame fuel
  refine ⟨fun m hm => ?_, fun x run => (kept.advance run).idle idle,
    fun x run => (kept.drive run).idle idle, fun x run => (kept.complete run).idle idle,
    fun x run => (kept.infer run).idle idle⟩
  have free : m.router.Idle := by
    rcases hm with hm | hm | hm | hm
    · exact found.advance idle m hm
    · exact found.drive idle m hm
    · exact found.complete idle m hm
    · exact found.infer idle m hm
  refine ⟨free, fun forwarded _ => ⟨(Router.Frame.dispatch m.router forwarded).idle free, ?_⟩⟩
  intro name failed
  exact free.raises_of_dispatch failed trivial

end Run

/-! ### A program that forwards effects by itself -/

/-- A program that is inferred by another. It runs a third one in the middle, which forwards an
effect itself. -/
inductive Relay where
  /-- The program around. -/
  | outer
  /-- The choice of the inferred program. -/
  | choice
  /-- What comes after it: the third program is run. -/
  | middle
  /-- The third program. -/
  | inner
  /-- The end of each of them. -/
  | done

namespace Relay

instance : Resumable Float (Strategies Float (NoOther Float)) Relay where
  resume
    | outer, _ => .infer (.sampling {} (.ofWords #[])) choice fun _ => done
    | choice, _ => .draw middle (.delta .unit) []
    | middle, _ => .run inner fun _ => done
    | inner, _ => .dispatch (.draw done (.delta .unit) []) fun _ => done
    | done, _ => .perform (.exit .unit)

/-- A router without handlers. -/
def router : Router Float (Strategies Float (NoOther Float)) Relay where
  source := .ofWords #[]

theorem idle_router : router.Idle := by
  intro c hc
  simp [router] at hc

end Relay

namespace Run

/-- The inferred program is at work in the middle of a run in the middle of a run when it forwards
an effect; that is one of the seven moments. -/
theorem idle_throughout_relay :
    (inferMoments 20 0 (.sampling {} (.ofWords #[])) (.start .outer) Relay.router).length = 7 ∧
    ∀ m ∈ inferMoments 20 0 (.sampling {} (.ofWords #[])) (.start .outer) Relay.router,
      m.router.Idle ∧ ∀ step, m.use = .dispatch step → (m.router.dispatch step).2.Idle ∧
        ∀ name, (m.router.dispatch step).1 = .error (.reentrant name) →
          step.Raises (.reentrant name) := by
  obtain ⟨free, -⟩ := idle_throughout 20 0 0 (.sampling {} (.ofWords #[])) (.start .outer)
    (.exit .unit) Relay.idle_router
  refine ⟨by decide +kernel, fun m hm => ?_⟩
  exact free m (.inr (.inr (.inr hm)))

end Run

/-- A distribution that fails in the given way when a value is drawn. -/
def Distribution.forged (e : Failure) : Distribution Float where
  name := "forged"
  sample? := some fun _ source => (.error e, source)

/-- No handler is installed at all, but the distribution fails as if one were at work, and so does
the run. -/
theorem Run.reentrant_of_forged :
    Relay.router.Idle ∧
    (∃ m ∈ completeMoments 3 0 (.draw .done (.forged (.reentrant "active")) []) Relay.router,
      ∃ step, m.use = .dispatch step ∧
        (m.router.dispatch step).1 = .error (.reentrant "active")) ∧
    (run 3 (.draw .done (.forged (.reentrant "active")) []) Relay.router).map Prod.fst =
      some (.error (.reentrant "active")) := by
  refine ⟨Relay.idle_router,
    ⟨⟨0, Relay.router, .dispatch (.draw .done (.forged (.reentrant "active")) [])⟩, ?_, _, rfl,
      rfl⟩, rfl⟩
  rw [completeMoments]
  refine List.mem_append_right _ ?_
  change _ ∈ driveMoments 2 0 0 (.draw .done (.forged (.reentrant "active")) []) Relay.router
  rw [driveMoments]
  exact List.mem_cons_self

end Posterior
