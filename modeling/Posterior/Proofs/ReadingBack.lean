import Posterior.Proofs.Deposits

/-!
# Reading frozen marginals back

Freezing a marginal gives a distribution that lists its values and scores them by its log-masses. A
marginal is read off a distribution by adding the score of each value that is listed. The first mass
that is added to a value is kept as it is, and no value is listed twice, so neither of the two loses
anything: not a bit of a log-mass, and be it infinite or no number at all.

## Main results

* `Marginal.addScores_eq` — what the scores of listed values add up to
* `Marginal.reads_back` — freezing and reading back are inverse to each other
-/

namespace Posterior

namespace Marginal

variable {X : Type} [Scalar X] {d : Distribution X} {params : List Value} {v : Value}
  {es : List (Value × X)}

/-- A value that has no entry gets one behind the others. -/
theorem insert_of_not_isIn (new : v.isIn (es.map Prod.fst) = false) (l : X) :
    insert v l es = es ++ [(v, Scalar.logAddExp Scalar.negInf l)] := by
  induction es with
  | nil => rfl
  | cons e es ih =>
    obtain ⟨u, k⟩ := e
    rw [List.map_cons, Value.isIn_cons, Bool.or_eq_false_iff] at new
    rw [insert, new.1, ih new.2]
    rfl

omit [Scalar X] in
/-- The key of an entry is not among those before it. -/
theorem isIn_keys_of_distinctKeys {e : Value × X} {front back : List (Value × X)}
    (distinct : DistinctKeys (front ++ e :: back)) : e.1.isIn (front.map Prod.fst) = false := by
  obtain ⟨-, -, apart⟩ := List.pairwise_append.1 distinct
  rw [Value.isIn, List.any_eq_false]
  intro u hu
  obtain ⟨c, hc, rfl⟩ := List.mem_map.1 hu
  exact Bool.eq_false_iff.1 (apart c hc e List.mem_cons_self)

variable (told : Scalar.eq (Scalar.negInf : X) Scalar.negInf = true)

include told

/-- The scores of values without an entry become their entries, in order. -/
theorem addScores_eq (m : Marginal X) (distinct : DistinctKeys (m.entries ++ es))
    (scored : ∀ e ∈ es, d.score params e.1 = .ok e.2) :
    addScores d params m (es.map Prod.fst) = .ok ⟨m.entries ++ es, distinct⟩ := by
  induction es generalizing m with
  | nil => simp [addScores]
  | cons e es ih =>
    obtain ⟨first, others⟩ := List.forall_mem_cons.1 scored
    -- No value before is equal, so the score starts an entry of its own and is neither added nor
    -- rounded.
    have added : (m.addLog e.1 e.2).entries = m.entries ++ [e] := by
      change insert e.1 e.2 m.entries = _
      rw [insert_of_not_isIn (isIn_keys_of_distinctKeys distinct), Scalar.logAddExp_negInf told]
    have entries : (m.addLog e.1 e.2).entries ++ es = m.entries ++ e :: es := by
      rw [added, List.append_assoc, List.singleton_append]
    have distinct' : DistinctKeys ((m.addLog e.1 e.2).entries ++ es) := by rwa [entries]
    rw [List.map_cons, addScores, first]
    simp only [ih _ distinct' others, entries]

/-- What is read off a distribution that lists values once and scores them. -/
theorem ofDistribution?_eq (listed : d.support params = .ok (es.map Prod.fst))
    (distinct : DistinctKeys es) (scored : ∀ e ∈ es, d.score params e.1 = .ok e.2) :
    ofDistribution? d params = .ok ⟨es, distinct⟩ := by
  rw [ofDistribution?, listed]
  exact addScores_eq told empty distinct scored

theorem ofDistribution?_toDistribution (m : Marginal X) (params : List Value) :
    ofDistribution? m.toDistribution params = .ok m := by
  apply ofDistribution?_eq told rfl m.distinct
  intro e he
  have score : m.toDistribution.score params e.1 =
      .ok ((find? e.1 m.entries).getD Scalar.negInf) := rfl
  rw [score, find?_of_mem m.distinct he BEq.rfl, Option.getD_some]

/-- A distribution that lists values once and scores them is frozen again from the marginal that is
read off it. -/
theorem toDistribution_ofDistribution? {vs : List Value} (listed : d.support params = .ok vs)
    (distinct : vs.Pairwise fun u v => (u == v) = false)
    (scored : ∀ v ∈ vs, ∃ l, d.score params v = .ok l) :
    ∃ m, ofDistribution? d params = .ok m ∧ ∀ params',
      m.toDistribution.support params' = .ok vs ∧
      (∀ u ∈ vs, ∀ v, (u == v) = true → m.toDistribution.score params' v = d.score params u) ∧
      ∀ v, v.isIn vs = false → m.toDistribution.score params' v = .ok Scalar.negInf := by
  -- Each value is put beside its score.
  obtain ⟨es, rfl, scores⟩ : ∃ es : List (Value × X), es.map Prod.fst = vs ∧
      ∀ e ∈ es, d.score params e.1 = .ok e.2 := by
    refine ⟨vs.map fun v => (v, (d.score params v).toOption.getD Scalar.negInf), ?_, ?_⟩
    · rw [List.map_map]
      exact List.map_id _
    · intro e he
      obtain ⟨v, hv, rfl⟩ := List.mem_map.1 he
      obtain ⟨l, score⟩ := scored v hv
      rw [score]
      rfl
  have distinctKeys : DistinctKeys es := List.pairwise_map.1 distinct
  refine ⟨_, ofDistribution?_eq told listed distinctKeys scores, ?_⟩
  intro params'
  refine ⟨rfl, ?_, ?_⟩
  · intro u hu v same
    obtain ⟨e, he, rfl⟩ := List.mem_map.1 hu
    rw [scores e he]
    change Except.ok ((find? v es).getD Scalar.negInf) = _
    rw [find?_of_mem distinctKeys he same, Option.getD_some]
  · intro v new
    change Except.ok ((find? v es).getD Scalar.negInf) = _
    rw [find?_of_not_isIn new, Option.getD_none]

end Marginal

/-- Minus infinity equals itself, as a double too. -/
theorem Scalar.float_negInf_eq : Scalar.eq (Scalar.negInf : Float) Scalar.negInf = true := by
  decide +kernel

/-- Freezing and reading back are inverse to each other. A marginal is read back from its frozen
distribution with the same keys in the same order and the same bits in its log-masses, whatever
these are. And a distribution that lists values once and scores them all is the same after it has
been read and frozen: it lists the same values in the same order, scores those equal to a listed one
as that was scored, and all others by minus infinity. -/
theorem Marginal.reads_back :
    (∀ (m : Marginal Float) (params : List Value),
      ofDistribution? m.toDistribution params = .ok m) ∧
    ∀ (d : Distribution Float) (params vs : List Value), d.support params = .ok vs →
      vs.Pairwise (fun u v => (u == v) = false) → (∀ v ∈ vs, ∃ l, d.score params v = .ok l) →
      ∃ m, ofDistribution? d params = .ok m ∧ ∀ params',
        m.toDistribution.support params' = .ok vs ∧
        (∀ u ∈ vs, ∀ v, (u == v) = true → m.toDistribution.score params' v = d.score params u) ∧
        ∀ v, v.isIn vs = false → m.toDistribution.score params' v = .ok Scalar.negInf :=
  ⟨ofDistribution?_toDistribution Scalar.float_negInf_eq,
    fun _ _ _ => toDistribution_ofDistribution? Scalar.float_negInf_eq⟩

/-- Three values with log-masses of all kinds: none, too much, and no number. -/
def Distribution.unruly : Distribution Float where
  name := "unruly"
  score? := some fun _ v =>
    .ok (if v == .float 0 then 0 / 0 else if v == .list [.unit, .int 3] then 1 / 0 else -1 / 0)
  support? := some fun _ => .ok [.float (-0.0), .list [.unit, .int 3], .str "b"]

/-- A score that is not a number comes back as it was, also by the other zero. -/
theorem Marginal.reads_back_unruly :
    ∃ m, ofDistribution? Distribution.unruly [] = .ok m ∧
      m.toDistribution.support [] = .ok [.float (-0.0), .list [.unit, .int 3], .str "b"] ∧
      m.toDistribution.score [] (.float 0) = .ok (0 / 0) ∧
      m.toDistribution.score [] .unit = .ok Scalar.negInf := by
  have distinct : [Value.float (-0.0), .list [.unit, .int 3], .str "b"].Pairwise
      fun u v => (u == v) = false := by decide +kernel
  obtain ⟨m, read, frozen⟩ := reads_back.2 .unruly [] _ rfl distinct fun _ _ => ⟨_, rfl⟩
  obtain ⟨support, listed, others⟩ := frozen []
  refine ⟨m, read, support, ?_, others .unit (by decide +kernel)⟩
  rw [listed (.float (-0.0)) List.mem_cons_self (.float 0) (by decide +kernel)]
  exact congrArg Except.ok (if_pos (by decide +kernel))

end Posterior
