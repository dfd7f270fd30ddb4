import Posterior.Proofs.Violations

/-!
# What layers have taken down

A recording takes an effect down before the strategy sees it, a layer of metrics counts it when the
answer is there. They agree about every run of a program that leaves its effects to the driver: the
recording holds the effects that have reached the strategy, in order, and the metrics have counted
each of them once, by its kind if it was answered and as an error if it was rejected. That can only
be the last one, with which the run ends.

This holds for any strategy, and for any layers in any order, since each layer sees every effect and
every answer.

## Main definitions

* `RecordedEffect.Holds` — what an entry of a recording holds of an effect
* `Layer.noted` — a layer after effects and their answers
* `Run.Counted`, `Run.Accounts` — how a recording and counts fit the effects of a run

## Main results

* `Run.told_layered` — effects and answers pass through all layers alike
* `Run.infer_accounts` — recordings and metrics agree about every run
-/

namespace Posterior

variable {X : Type} {S : Type → Type} {K : Type}

/-! ### Counts -/

/-- How many effects of a kind were handled. -/
def Counts.handled (c : Counts) : Effect → Nat
  | .draw => c.draws
  | .weight => c.weights
  | .exit => c.exits

/-- The kind of an effect that is recorded. -/
def RecordedEffect.effect : RecordedEffect X → Effect
  | draw _ _ => .draw
  | weight _ => .weight
  | exit _ => .exit

/-- What an entry of a recording holds of an effect: of a choice the name of the distribution and the
parameters, of a constraint the log-weight, and of the end of a path the value. -/
inductive RecordedEffect.Holds : RecordedEffect X → Step X K → Prop
  | draw (k : K) (d : Distribution X) (params : List Value) :
    Holds (.draw d.name params) (.draw k d params)
  | weight (k : K) (logWeight : X) : Holds (.weight logWeight) (.weight k logWeight)
  | exit (v : Value) : Holds (.exit v) (.exit v)

theorem Step.holds_recorded (step : Step X K) : step.recorded.Holds step := by
  cases step with
  | draw k d params => exact .draw k d params
  | weight k logWeight => exact .weight k logWeight
  | exit v => exact .exit v

@[simp] theorem Step.effect_recorded (step : Step X K) : step.recorded.effect = step.effect := by
  cases step <;> rfl

namespace Counts

/-- The counts after effects and their answers. -/
def noted (c : Counts) (es : List (Run.Exchange X K)) : Counts :=
  es.foldl (fun c e => c.record e.1.effect e.2.isOk) c

theorem handled_record (c : Counts) (effect kind : Effect) (accepted : Bool) :
    (c.record effect accepted).handled kind =
      c.handled kind + if accepted ∧ effect = kind then 1 else 0 := by
  cases accepted <;> cases effect <;> cases kind <;> rfl

theorem errors_record (c : Counts) (effect : Effect) (accepted : Bool) :
    (c.record effect accepted).errors = c.errors + if accepted then 0 else 1 := by
  cases accepted <;> cases effect <;> rfl

theorem noted_cons (c : Counts) (e : Run.Exchange X K) (es : List (Run.Exchange X K)) :
    c.noted (e :: es) = (c.record e.1.effect e.2.isOk).noted es := rfl

/-- Each effect is counted once. -/
theorem total_noted (c : Counts) (es : List (Run.Exchange X K)) :
    (c.noted es).draws + (c.noted es).weights + (c.noted es).exits + (c.noted es).errors =
      c.draws + c.weights + c.exits + c.errors + es.length := by
  induction es generalizing c with
  | nil => rfl
  | cons e es ih =>
    have one : ∀ (effect : Effect) (accepted : Bool),
        (c.record effect accepted).draws + (c.record effect accepted).weights +
            (c.record effect accepted).exits + (c.record effect accepted).errors =
          c.draws + c.weights + c.exits + c.errors + 1 := by
      intro effect accepted
      cases accepted <;> cases effect <;> simp only [record, if_true, Bool.false_eq_true, if_false] <;>
        omega
    rw [noted_cons, ih, one, List.length_cons]
    omega

/-- Effects that are answered are counted by kind, and none as an error. -/
theorem noted_of_answered {es : List (Run.Exchange X K)} (answered : ∀ e ∈ es, e.2.isOk = true)
    (c : Counts) :
    (∀ kind, (c.noted es).handled kind =
      c.handled kind + (es.map fun e => e.1.recorded).countP fun entry => entry.effect = kind) ∧
      (c.noted es).errors = c.errors := by
  induction es generalizing c with
  | nil => exact ⟨fun _ => rfl, rfl⟩
  | cons e es ih =>
    obtain ⟨first, others⟩ := List.forall_mem_cons.1 answered
    obtain ⟨handled, errors⟩ := ih others (c.record e.1.effect e.2.isOk)
    rw [noted_cons]
    constructor
    · intro kind
      rw [handled kind, handled_record, List.map_cons, List.countP_cons, first,
        Step.effect_recorded]
      simp only [true_and, decide_eq_true_eq]
      omega
    · rw [errors, errors_record, first]
      rfl

/-- An effect that is rejected is counted as an error. -/
theorem noted_rejected (es : List (Run.Exchange X K)) (step : Step X K) (err : Failure)
    (c : Counts) :
    (∀ kind, (c.noted (es ++ [(step, .error err)])).handled kind = (c.noted es).handled kind) ∧
      (c.noted (es ++ [(step, .error err)])).errors = (c.noted es).errors + 1 := by
  have last : c.noted (es ++ [(step, .error err)]) =
      { c.noted es with errors := (c.noted es).errors + 1 } := List.foldl_append
  rw [last]
  refine ⟨?_, rfl⟩
  intro kind
  cases kind <;> rfl

end Counts

/-! ### Layers -/

namespace Layer

/-- A layer after effects and their answers. -/
def noted (es : List (Run.Exchange X K)) : Layer X → Layer X
  | trace tag => trace tag
  | metrics c => metrics (c.noted es)
  | recording log => recording (log ++ (es.map fun e => e.1.recorded).toArray)

theorem noted_nil (l : Layer X) : l.noted ([] : List (Run.Exchange X K)) = l := by
  cases l <;> simp [noted, Counts.noted]

theorem noted_cons (e : Run.Exchange X K) (es : List (Run.Exchange X K)) (l : Layer X) :
    l.noted (e :: es) = (l.passed e.1 e.2).noted es := by
  cases l with
  | trace tag =>
    have kept : (trace tag : Layer X).passed e.1 e.2 = trace tag := by
      cases e.1 <;> simp [passed, before, after] <;> split <;> rfl
    rw [kept]
    rfl
  | metrics c => rfl
  | recording log => simp [noted, passed, before, after]

theorem starting_value (strategy : String) (l : Layer X) :
    (l.starting strategy).value = l.cleared := by
  cases l <;> rfl

/-- A layer that holds the given recording or counts. -/
def holding (log : Array (RecordedEffect X)) (c : Counts) : Layer X → Layer X
  | trace tag => trace tag
  | metrics _ => metrics c
  | recording _ => recording log

/-- Layers that start afresh hold what they are told. -/
theorem noted_cleared {l : Layer X} (fresh : ∀ c, l = metrics c → c = {})
    (es : List (Run.Exchange X K)) :
    l.cleared.noted es =
      l.holding (es.map fun e => e.1.recorded).toArray (Counts.noted {} es) := by
  cases l with
  | trace tag => rfl
  | metrics c => rw [fresh c rfl]; rfl
  | recording log => simp [noted, cleared, holding]

end Layer

namespace Run

variable [Strategy X S]

/-- The strategy inside answers as it would without layers. -/
theorem answered_layered (steps : List (Step X K)) (s : Layered X S K) :
    answered s steps = answered s.core steps := by
  induction steps generalizing s with
  | nil => rfl
  | cons step steps ih => rw [answered, answered, Layered.handle_eq, ih]

/-- Effects and answers pass through all layers alike. -/
theorem told_layered (steps : List (Step X K)) (s : Layered X S K) :
    told s steps = ⟨s.layers.map (Layer.noted (answered s.core steps)), told s.core steps⟩ := by
  induction steps generalizing s with
  | nil =>
    have same : Layer.noted (answered s.core []) = id := funext Layer.noted_nil
    rw [same, List.map_id]
    rfl
  | cons step steps ih =>
    rw [told_cons, Layered.handle_eq, ih, List.map_map, told_cons, answered]
    congr 1
    apply List.map_congr_left
    intro l _
    exact (Layer.noted_cons (_, _) _ l).symm

/-- Being asked for the result changes nothing in the layers. -/
theorem layers_conclude (name : String) (s : Layered X S K) (x : Result (Option Value))
    (r : Router X (Layered X S) K) : (conclude name s x r).2.1.layers = s.layers := by
  match x with
  | .error e => rfl
  | .ok (some v) => rfl
  | .ok none => exact congrArg (fun out => out.2.layers) (Layered.finish_eq s)

/-! ### Recordings and metrics -/

/-- How counts fit a recording of effects that were answered in this way, on the way to a result. -/
inductive Counted (d : Result (Distribution X)) (log : List (RecordedEffect X)) (c : Counts) :
    List (Exchange X K) → Prop
  /-- All effects were answered, and each is counted. -/
  | answered {es : List (Exchange X K)} : (∀ e ∈ es, e.2.isOk = true) →
    (∀ kind, c.handled kind = log.countP fun entry => entry.effect = kind) → c.errors = 0 →
    Counted d log c es
  /-- The last effect was rejected, and the run ended with that; the others are counted. -/
  | rejected {es : List (Exchange X K)} {step : Step X K} {err : Failure} :
    (∀ e ∈ es, e.2.isOk = true) → d = .error err →
    (∀ kind, c.handled kind = log.dropLast.countP fun entry => entry.effect = kind) →
    c.errors = 1 → Counted d log c (es ++ [(step, .error err)])

/-- A recording and counts that account for effects and answers on the way to a result: entry by
entry the recording holds the effects, and no others. -/
structure Accounts (es : List (Exchange X K)) (d : Result (Distribution X))
    (log : List (RecordedEffect X)) (c : Counts) : Prop where
  recorded : List.Forall₂ (fun entry e => entry.Holds e.1) log es
  counted : Counted d log c es
  total : c.draws + c.weights + c.exits + c.errors = log.length

omit [Strategy X S] in
/-- Only the last effect of a conversation can be rejected, and it ends the run. -/
theorem Conversation.rejected_or {es : List (Exchange X K)} {x : Result (Option Value)}
    (conversation : Conversation es x) :
    (∀ e ∈ es, e.2.isOk = true) ∨
      ∃ before step err, es = before ++ [(step, .error err)] ∧
        (∀ e ∈ before, e.2.isOk = true) ∧ x = .error err := by
  induction conversation with
  | failed e => exact .inl (by simp)
  | rejected step err => exact .inr ⟨[], step, err, rfl, by simp, rfl⟩
  | halted step v => exact .inl (by simp [Except.isOk, Except.toBool])
  | resumed step k v _ ih =>
    rcases ih with all | ⟨before, last, err, rfl, answered, failed⟩
    · exact .inl (List.forall_mem_cons.2 ⟨rfl, all⟩)
    · exact .inr ⟨(step, .ok (.resume k v)) :: before, last, err, rfl,
        List.forall_mem_cons.2 ⟨rfl, answered⟩, failed⟩

omit [Strategy X S] in
/-- What layers hold that were told of a conversation accounts for it. -/
theorem Conversation.accounts {es : List (Exchange X K)} {x : Result (Option Value)}
    {d : Result (Distribution X)} (conversation : Conversation es x)
    (passed : ∀ err, x = .error err → d = .error err) :
    Accounts es d (es.map fun e => e.1.recorded) (Counts.noted {} es) where
  recorded := List.forall₂_map_left_iff.2 (List.forall₂_same.2 fun e _ => e.1.holds_recorded)
  total := by
    rw [Counts.total_noted, List.length_map]
    exact Nat.zero_add _
  counted := by
    have none : ∀ kind, Counts.handled {} kind = 0 := by
      intro kind
      cases kind <;> rfl
    rcases conversation.rejected_or with all | ⟨before, step, err, rfl, all, failed⟩
    · obtain ⟨handled, errors⟩ := Counts.noted_of_answered all {}
      refine .answered all ?_ errors
      intro kind
      rw [handled kind, none, Nat.zero_add]
    · obtain ⟨handled, errors⟩ := Counts.noted_of_answered all {}
      -- The rejected effect is recorded last, and counted as an error.
      refine .rejected all (passed err failed) ?_ ?_
      · intro kind
        rw [(Counts.noted_rejected before step err {}).1, handled kind, none, Nat.zero_add,
          List.map_append, List.map_singleton, List.dropLast_concat]
      · rw [(Counts.noted_rejected before step err {}).2, errors]

variable [Resumable X (Layered X S) K]

/-- Recordings and metrics agree about every run. Let a program that leaves its effects to the driver
be inferred with any strategy, and any layers around it in any order, whose counts start from zero.
Then all recordings hold the effects that have reached the strategy since its start, in order, and
all metrics have counted each of them once: those that were answered by kind, and the one that was
rejected, if the run has ended with that, as an error. There are as many as the driver has forwarded,
which it reports when the run is halted. -/
theorem infer_accounts {ls : List (Layer X)} (fresh : ∀ c, Layer.metrics c ∈ ls → c = {})
    {core : S K} {a : Action X (Layered X S) K} (deferred : a.Deferred ⟨ls, core⟩) {fuel : Nat}
    {r r' : Router X (Layered X S) K} {d : Result (Distribution X)} {s : Layered X S K}
    (run : infer (fuel + 1) ⟨ls, core⟩ a r = some (d, s, r')) :
    ∃ log c, s.layers = ls.map (Layer.holding log.toArray c) ∧
      Accounts (asked r.cells.size (inferMoments (fuel + 1) 0 ⟨ls, core⟩ a r)) d log c ∧
      ∀ w q, complete fuel a (r.enter ⟨ls, core⟩).2 = some (.ok w, q) →
        q.events.back? = some (.halted log.length) := by
  obtain ⟨x, q, inner, concluded, conversation, counted⟩ := exists_conversation deferred run
  refine ⟨_, _, ?_, conversation.accounts ?_, ?_⟩
  · -- The layers start afresh, and are told what the strategy is told.
    have left : s.layers = _ := (congrArg (fun out => out.2.1.layers) concluded).trans
      (layers_conclude _ _ _ _)
    rw [left, told_layered, asked_inferMoments, answered_layered, Layered.start_eq, List.map_map]
    apply List.map_congr_left
    intro l member
    rw [Function.comp, Layer.starting_value]
    apply Layer.noted_cleared
    rintro c rfl
    exact fresh c member
  · rintro err rfl
    exact congrArg Prod.fst concluded
  · intro w q' halted
    obtain ⟨rfl, rfl⟩ := Prod.mk.inj (Option.some.inj (inner.symm.trans halted))
    rw [counted w rfl, List.length_map]

end Run

/-! ### The strategies of this library -/

section Builtin

variable [Scalar X] {T : Type → Type} [Strategy X T] {P : K → Prop} {s : Strategies X T K}

theorem handsBack_of_keeps (own : s.core.IsOwn) (keeps : s.core.Keeps P) : Run.HandsBack P s := by
  intro steps
  induction steps generalizing s with
  | nil =>
    intro step k v _ within resumed
    rw [Run.told_nil, Layered.handle_eq] at resumed
    exact (Builtin.keeps_handle _ own keeps within).2 k v resumed
  | cons first steps ih =>
    intro step k v all within resumed
    obtain ⟨here, later⟩ := List.forall_mem_cons.1 all
    rw [Run.told_cons] at resumed
    refine ih ?_ ?_ step k v later within resumed
    · rw [Layered.handle_eq]
      exact Builtin.isOwn_handle own
    · rw [Layered.handle_eq]
      exact (Builtin.keeps_handle _ own keeps here).1

/-- The strategies of this library, with any layers around them, go on with continuations of the
program only. -/
theorem handsBack_start (P : K → Prop) (own : s.core.IsOwn) :
    Run.HandsBack P (Strategy.start s).value := by
  rw [Layered.start_eq]
  exact handsBack_of_keeps (Builtin.isOwn_start own) (Builtin.keeps_start P own)

end Builtin

/-- The program around, whose inference runs a third program, leaves its own effect to the driver. -/
theorem Relay.deferred_outer {s : Strategies Float (NoOther Float) Relay} (own : s.core.IsOwn) :
    (.start .outer : Action Float (Strategies Float (NoOther Float)) Relay).Deferred s := by
  refine ⟨fun k => k = .done, fun _ => rfl, ?_, handsBack_start _ own⟩
  rintro k v rfl
  trivial

/-- All continuations of a tree leave their effects to the driver. -/
theorem Tree.deferred_program [Strategy X S] (t : Tree X) (s : S (Tree.Rest X)) :
    (t.program : Action X S (Tree.Rest X)).Deferred s := by
  have defers : ∀ t : Tree X, (t.program : Action X S (Tree.Rest X)).Defers fun _ => True := by
    intro t
    cases t <;> trivial
  exact Action.deferred_of_forall (defers t) fun k v => defers (k.next v)

/-- The counts that a layer holds. -/
def Layer.counts? : Layer X → Option Counts
  | metrics c => some c
  | _ => none

/-- A search with metrics around a recording. -/
def countedSearch : Strategies Float (NoOther Float) Relay :=
  ⟨[.metrics {}, .recording #[]], .enumeration (.fresh false)⟩

/-- Direct sampling with a recording around metrics. -/
def recordedSampling : Strategies Float (NoOther Float) (Tree.Rest Float) :=
  ⟨[.recording #[], .metrics {}], .sampling { source := .ofWords #[] }⟩

/-- A choice without alternatives, and then a constraint. -/
def constrained : Tree Float := .draw (.delta .unit) [] fun _ => .weight (-1) (.exit .unit)

namespace Run

/-- A search with metrics around a recording is told of one effect, whatever goes on in the inference
that the program makes. Sampling, with a recording around metrics, rejects the second of two. -/
theorem infer_accounts_relay :
    (∃ d s r' log c, infer 20 countedSearch (.start .outer) Relay.router = some (d, s, r') ∧
        s.layers = [.metrics c, .recording (log : List (RecordedEffect Float)).toArray] ∧
        c = { exits := 1 } ∧ log.length = 1) ∧
      ∃ d s r' log c, infer 20 recordedSampling constrained.program
          { source := .ofWords #[] } = some (d, s, r') ∧
        s.layers = [.recording (log : List (RecordedEffect Float)).toArray, .metrics c] ∧
        c = { draws := 1, errors := 1 } ∧ log.length = 2 := by
  constructor
  · have counts : (infer 20 countedSearch (.start .outer) Relay.router).map
        (fun out => out.2.1.layers.filterMap Layer.counts?) = some [{ exits := 1 }] := by
      decide +kernel
    obtain ⟨⟨d, s, r'⟩, run, counts⟩ := Option.map_eq_some_iff.1 counts
    have own : countedSearch.core.IsOwn := trivial
    obtain ⟨log, c, held, accounts, -⟩ := infer_accounts (by simp) (Relay.deferred_outer own) run
    rw [held] at counts
    obtain rfl : c = { exits := 1 } := List.head_eq_of_cons_eq (show [c] = _ from counts)
    exact ⟨d, s, r', log, _, run, held, rfl, accounts.total.symm⟩
  · have counts : (infer 20 recordedSampling constrained.program { source := .ofWords #[] }).map
        (fun out => out.2.1.layers.filterMap Layer.counts?) =
          some [{ draws := 1, errors := 1 }] := by
      decide +kernel
    obtain ⟨⟨d, s, r'⟩, run, counts⟩ := Option.map_eq_some_iff.1 counts
    obtain ⟨log, c, held, accounts, -⟩ :=
      infer_accounts (by simp) (constrained.deferred_program _) run
    rw [held] at counts
    obtain rfl : c = { draws := 1, errors := 1 } :=
      List.head_eq_of_cons_eq (show [c] = _ from counts)
    exact ⟨d, s, r', log, _, run, held, rfl, accounts.total.symm⟩

end Run

end Posterior
