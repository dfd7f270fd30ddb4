import Posterior.Proofs.Agenda
import Posterior.Proofs.Drawing
import Posterior.Proofs.Failing
import Posterior.Strategy.ForwardSampling

/-!
# Parameters that are accepted

Each function of a distribution checks the parameters by itself. For a coin flip and a choice by
weight all three come to the same verdict: they refuse the same parameters, for the same reason, and
nothing but the parameters can make them fail. So a choice with parameters that make no sense fails
in the same way whether it is sampled or enumerated.

A uniform choice agrees with that as long as there are items. Without items it cannot be sampled and
has no scores, but its support is listed all the same, and it has no values.

## Main definitions

* `Distribution.Verdict` — what the functions of a distribution say about parameters
* `Distribution.Unanimous` — parameters about which functions and strategies agree

## Main results

* `Distribution.Verdict.unanimous` — the strategies agree if the functions do
* `Distribution.choices_unanimous` — the verdicts of the elementary random choices
* `Distribution.divided_of_no_items` — the verdicts on a choice among no items
-/

namespace Posterior.Distribution

variable {X : Type} {d : Distribution X} {params : List Value}

/-- What the functions of a distribution say about parameters: they all accept them, whatever the
source and the value, or they all refuse them for one reason, in the name of the distribution and
before anything is taken from a source. -/
inductive Verdict (d : Distribution X) (params : List Value) : Prop
  | accepted
    (drawn : ∀ source, ∃ v source', d.sample params source = (.ok v, source'))
    (scored : ∀ v, ∃ l, d.score params v = .ok l)
    (listed : ∃ vs, d.support params = .ok vs)
  | refused (reason : String)
    (undrawn : ∀ source, d.sample params source = (.error (.invalidParams d.name reason), source))
    (unscored : ∀ v, d.score params v = .error (.invalidParams d.name reason))
    (unlisted : d.support params = .error (.invalidParams d.name reason))

/-- The functions agree about parameters if they all read them in the same way, and what has been
read can be sampled. -/
theorem Verdict.of_read {α : Type} {read : Result α} {score : Value → α → X}
    {listing : α → List Value}
    (named : ∀ err, read = .error err → ∃ reason, err = .invalidParams d.name reason)
    (drawn : ∀ a, read = .ok a → ∀ source, ∃ v source', d.sample params source = (.ok v, source'))
    (undrawn : ∀ err, read = .error err → ∀ source, d.sample params source = (.error err, source))
    (scored : ∀ v, d.score params v = read.map (score v))
    (listed : d.support params = read.map listing) : d.Verdict params := by
  cases outcome : read with
  | ok a =>
    refine .accepted (drawn a outcome) ?_ ?_
    · intro v
      rw [scored v, outcome]
      exact ⟨score v a, rfl⟩
    · rw [listed, outcome]
      exact ⟨listing a, rfl⟩
  | error err =>
    obtain ⟨reason, rfl⟩ := named err outcome
    refine .refused reason (undrawn _ outcome) ?_ ?_
    · intro v
      rw [scored v, outcome]
      rfl
    · rw [listed, outcome]
      rfl

variable [Scalar X]

/-- The functions of a distribution come to one verdict about parameters, and so do the strategies
that make a choice with them: either both turn it down for the same reason and are left as they
were, or neither does. -/
structure Unanimous (d : Distribution X) (params : List Value) : Prop where
  verdict : d.Verdict params
  drawn : ∀ (K : Type) (k : K) (h : ForwardSampling X K) (e : Enumeration X K),
    (∃ reason,
      h.handle (.draw k d params) = pure (.error (.invalidParams d.name reason), h) ∧
      e.handle (.draw k d params) = pure (.error (.invalidParams d.name reason), e)) ∨
    ((h.handle (.draw k d params)).value.1.isOk = true ∧
      (e.handle (.draw k d params)).value.1.isOk = true)

/-! ### Strategies -/

/-- A search does not turn down a choice that can be listed and scored. -/
theorem isOk_enumeration {K : Type} {k : K} {e : Enumeration X K} {vs : List Value}
    (listable : d.has .support = true) (scorable : d.has .score = true)
    (listed : d.support params = .ok vs) (scored : ∀ v, ∃ l, d.score params v = .ok l) :
    (e.handle (.draw k d params)).value.1.isOk = true := by
  cases answer : (e.handle (.draw k d params)).value.1 with
  | ok r => rfl
  | error err =>
    -- Whatever check the choice had not passed, it has passed it.
    cases Enumeration.fails_of_handle answer with
    | noSupport missing => exact Bool.noConfusion (missing.symm.trans listable)
    | noScore _ missing => exact Bool.noConfusion (missing.symm.trans scorable)
    | support _ _ failed => cases failed.symm.trans listed
    | score _ _ _ failed =>
      obtain ⟨l, found⟩ := scored _
      cases failed.symm.trans found

/-- The strategies agree about a choice if the functions of its distribution do. -/
theorem Verdict.unanimous (verdict : d.Verdict params) (listable : d.has .support = true)
    (scorable : d.has .score = true) : d.Unanimous params := by
  refine ⟨verdict, ?_⟩
  intro K k h e
  cases verdict with
  | accepted drawn scored listed =>
    right
    constructor
    · obtain ⟨v, source', sampled⟩ := drawn h.source
      rw [ForwardSampling.handle, sampled]
      rfl
    · obtain ⟨vs, listed⟩ := listed
      exact isOk_enumeration listable scorable listed scored
  | refused reason undrawn unscored unlisted =>
    refine .inl ⟨reason, ?_, ?_⟩
    · rw [ForwardSampling.handle, undrawn]
    · exact (Enumeration.Fails.support listable scorable unlisted).handle_eq

/-! ### The elementary random choices -/

theorem verdict_bernoulli (params : List Value) :
    (bernoulli : Distribution X).Verdict params := by
  apply Verdict.of_read (fun _ => bernoulliWeight_eq_error) ?_ ?_ (fun _ => rfl) rfl
  · intro w read source
    simp only [sample, bernoulli, read]
    exact ⟨_, _, rfl⟩
  · intro err read source
    simp only [sample, bernoulli, read]

/-- The weights are checked a second time when an index is drawn, and pass again. -/
theorem verdict_categorical (params : List Value) :
    (categorical : Distribution Float).Verdict params := by
  apply Verdict.of_read (fun _ => categoricalWeights_eq_error) ?_ ?_ (fun _ => rfl) rfl
  · intro ws read source
    obtain ⟨-, total, accepted⟩ := categoricalWeights_eq_ok_iff.1 read
    obtain ⟨i, w, drawn, -, -⟩ := exists_drawn accepted source
    simp only [sample, categorical, read, drawn]
    exact ⟨_, _, rfl⟩
  · intro err read source
    simp only [sample, categorical, read]

/-- Some item is always drawn, since a source gives an index below their number. -/
theorem exists_item (some : params ≠ []) (source : Source) :
    ∃ v source', (uniformDraw : Distribution X).sample params source = (.ok v, source') ∧
      params[(source.below params.length).1]? = .some v := by
  have inside := source.below_lt (List.length_pos_iff.2 some)
  refine ⟨params[(source.below params.length).1], (source.below params.length).2, ?_,
    List.getElem?_eq_getElem inside⟩
  have nonempty : params.isEmpty = false := by simpa using some
  simp only [sample, uniformDraw, nonempty, Bool.false_eq_true, if_false,
    List.getElem?_eq_getElem inside]

theorem verdict_uniformDraw (some : params ≠ []) :
    (uniformDraw : Distribution X).Verdict params := by
  have nonempty : params.isEmpty = false := by simpa using some
  refine .accepted ?_ ?_ ?_
  · intro source
    obtain ⟨v, source', drawn, -⟩ := exists_item (X := X) some source
    exact ⟨v, source', drawn⟩
  · intro v
    simp only [score, uniformDraw, nonempty, Bool.false_eq_true, if_false]
    exact ⟨_, rfl⟩
  · exact ⟨_, rfl⟩

/-- The functions of a coin flip and of a choice by weight come to one verdict about any parameters,
and so do direct sampling and enumeration; those of a uniform choice do if there are items. -/
theorem choices_unanimous (params : List Value) :
    (bernoulli : Distribution Float).Unanimous params ∧
      (categorical : Distribution Float).Unanimous params ∧
      (params ≠ [] → (uniformDraw : Distribution Float).Unanimous params) :=
  ⟨(verdict_bernoulli params).unanimous rfl rfl, (verdict_categorical params).unanimous rfl rfl,
    fun some => (verdict_uniformDraw some).unanimous rfl rfl⟩

/-- A choice between two zeros that a program cannot tell apart, one of them without a sign. -/
theorem choices_unanimous_zeros :
    [Value.float 0, .float (-0.0)] ≠ [] ∧
      (uniformDraw : Distribution Float).Unanimous [.float 0, .float (-0.0)] := by
  have some : [Value.float 0, .float (-0.0)] ≠ [] := List.cons_ne_nil _ _
  exact ⟨some, (choices_unanimous _).2.2 some⟩

/-- Of no items none can be sampled or scored, but the support of the choice is listed. Direct
sampling fails, and enumeration goes on with the next path. -/
theorem divided_of_no_items :
    (∀ source, (uniformDraw : Distribution Float).sample [] source = (.error noItems, source)) ∧
      (∀ v, (uniformDraw : Distribution Float).score [] v = .error noItems) ∧
      (uniformDraw : Distribution Float).support [] = .ok [] ∧
      (∀ (K : Type) (k : K) (h : ForwardSampling Float K) (e : Enumeration Float K),
        (h.handle (.draw k uniformDraw [])).value.1 = .error noItems ∧
          (e.handle (.draw k uniformDraw [])).value.1 = .ok (e.forked []).next.value.1) ∧
      ¬ (uniformDraw : Distribution Float).Unanimous [] := by
  refine ⟨fun _ => rfl, fun _ => rfl, rfl, fun _ _ _ _ => ⟨rfl, rfl⟩, ?_⟩
  rintro ⟨⟨drawn, -, -⟩ | ⟨reason, -, -, unlisted⟩, -⟩
  · obtain ⟨v, source', sampled⟩ := drawn (.ofWords #[])
    cases sampled
  · cases unlisted

end Posterior.Distribution
