import Mathlib.Data.List.Induction
import Mathlib.Tactic.Common
import Posterior.Marginal
import Posterior.Proofs.Equality

/-!
# Marginals as folds

A marginal is built by putting masses on values, one after the other, while the masses for different
values come in any order. What it holds can be said for each value by itself: the values are there
in the order in which they were first met, and what has been put on a value is folded from left to
right, whatever has been put on others in between. Nothing is asked of the arithmetic.

## Main definitions

* `Deposit` — a mass put on a value
* `Marginal.ofDeposits` — the marginal that deposits build
* `Deposit.gathered` — what the deposits on one value come to

## Main results

* `Marginal.entries_ofDeposits` — the entries that deposits build
* `Marginal.ofDeposits_folds` — keys, log-masses and total as folds, and what normalization keeps
-/

namespace Posterior

namespace Value

variable {u v : Value} {seen vs ws : List Value}

/-! ### First occurrences -/

@[simp] theorem isIn_nil (v : Value) : v.isIn [] = false := rfl

@[simp] theorem isIn_cons (v u : Value) (vs : List Value) :
    v.isIn (u :: vs) = ((u == v) || v.isIn vs) := rfl

@[simp] theorem isIn_append : v.isIn (vs ++ ws) = (v.isIn vs || v.isIn ws) := List.any_append

/-- Equal values are in the same lists. -/
theorem isIn_congr (same : (u == v) = true) (vs : List Value) : u.isIn vs = v.isIn vs := by
  induction vs with
  | nil => rfl
  | cons w vs ih => rw [isIn_cons, isIn_cons, ih, BEq.congr_right same]

/-- The first occurrences are found one after the other. -/
theorem distinctAfter_append (seen vs ws : List Value) :
    distinctAfter seen (vs ++ ws) = distinctAfter (distinctAfter seen vs) ws := by
  induction vs generalizing seen with
  | nil => rfl
  | cons v vs ih => exact ih _

theorem distinct_append_singleton (vs : List Value) (v : Value) :
    distinct (vs ++ [v]) = distinct vs ++ if v.isIn (distinct vs) then [] else [v] := by
  rw [distinct, distinctAfter_append, ← distinct]
  simp only [distinctAfter]
  split <;> simp

theorem isIn_distinctAfter (v : Value) (seen vs : List Value) :
    v.isIn (distinctAfter seen vs) = (v.isIn seen || v.isIn vs) := by
  induction vs generalizing seen with
  | nil => simp [distinctAfter]
  | cons u vs ih =>
    rw [distinctAfter, ih, isIn_cons, ← Bool.or_assoc]
    congr 1
    split
    · next found =>
      -- A value that equals one seen before adds nothing to what is found.
      cases same : u == v with
      | false => rw [Bool.or_false]
      | true => rw [← isIn_congr same, found, Bool.or_true]
    · simp

/-- A value is among the first occurrences if it occurs at all. -/
theorem isIn_distinct (v : Value) (vs : List Value) : v.isIn (distinct vs) = v.isIn vs :=
  isIn_distinctAfter v [] vs

/-- First occurrences are not equal to each other. -/
theorem pairwise_distinct (vs : List Value) : (distinct vs).Pairwise fun u v => (u == v) = false := by
  induction vs using List.reverseRecOn with
  | nil => exact .nil
  | append_singleton vs v ih =>
    rw [distinct_append_singleton]
    split
    · rwa [List.append_nil]
    · next fresh =>
      refine List.pairwise_append.2 ⟨ih, List.pairwise_singleton _ _, fun u hu w hw => ?_⟩
      obtain rfl := List.mem_singleton.1 hw
      exact Bool.eq_false_iff.2 fun same => fresh (List.any_eq_true.2 ⟨u, hu, same⟩)

/-- Of distinct values one equals what is among them. -/
theorem countP_eq_one (distinct : vs.Pairwise fun u v => (u == v) = false)
    (found : v.isIn vs = true) : vs.countP (fun u => v == u) = 1 := by
  induction vs with
  | nil => cases found
  | cons u vs ih =>
    obtain ⟨apart, distinct⟩ := List.pairwise_cons.1 distinct
    rw [isIn_cons, Bool.or_eq_true] at found
    rw [List.countP_cons]
    cases same : v == u with
    | true =>
      -- Nothing behind equals what equals the first.
      have none : vs.countP (fun u => v == u) = 0 := by
        rw [List.countP_eq_zero]
        intro u' member again
        have both : (u == u') = true := BEq.trans (BEq.symm same) again
        rw [apart u' member] at both
        cases both
      rw [none]
      rfl
    | false =>
      have other : (u == v) = false := by rw [BEq.comm, same]
      rw [ih distinct (found.resolve_left (Bool.eq_false_iff.1 other))]
      rfl

end Value

/-! ### Deposits -/

/-- A mass put on a value, given as it is or by its logarithm. -/
inductive Deposit (X : Type) where
  /-- The mass itself. -/
  | mass (value : Value) (mass : X)
  /-- The logarithm of the mass. -/
  | logMass (value : Value) (logMass : X)

variable {X : Type}

namespace Deposit

/-- The value that mass is put on. -/
def value : Deposit X → Value
  | mass v _ => v
  | logMass v _ => v

variable [Scalar X]

/-- The logarithm of the mass. -/
def log : Deposit X → X
  | mass _ x => Scalar.ln x
  | logMass _ l => l

/-- The log-masses that are put on a value, in order. -/
def own (v : Value) (ds : List (Deposit X)) : List X :=
  (ds.filter fun d => v == d.value).map log

/-- What is put on a value, added up from left to right. -/
def gathered (v : Value) (ds : List (Deposit X)) : X :=
  (own v ds).foldl Scalar.logAddExp Scalar.negInf

variable {u v : Value}

/-- Equal values are given the same. -/
theorem gathered_congr (same : (u == v) = true) (ds : List (Deposit X)) :
    gathered u ds = gathered v ds := by
  have own_eq : own u ds = own v ds := by
    unfold own
    simp only [BEq.congr_left same]
  rw [gathered, own_eq, gathered]

theorem gathered_append_singleton (v : Value) (ds : List (Deposit X)) (d : Deposit X) :
    gathered v (ds ++ [d]) =
      if v == d.value then Scalar.logAddExp (gathered v ds) d.log else gathered v ds := by
  unfold gathered own
  rw [List.filter_append, List.map_append, List.foldl_append]
  cases same : v == d.value <;> simp [same]

/-- A value that nothing is put on has no mass. -/
theorem gathered_of_not_isIn {ds : List (Deposit X)} (h : v.isIn (ds.map value) = false) :
    gathered v ds = Scalar.negInf := by
  have none : ds.filter (fun d => v == d.value) = [] := by
    rw [List.filter_eq_nil_iff]
    intro d hd same
    rw [Value.isIn, List.any_eq_false] at h
    exact h d.value (List.mem_map_of_mem hd) (BEq.symm same)
  rw [gathered, own, none]
  rfl

end Deposit

/-! ### The marginal of deposits -/

namespace Marginal

variable [Scalar X] {f : Value → X} {ks : List Value} {v : Value}

/-- Adds a deposit. -/
def deposit (m : Marginal X) : Deposit X → Marginal X
  | .mass v x => m.add v x
  | .logMass v l => m.addLog v l

/-- The marginal that deposits build, from the first to the last. -/
def ofDeposits (ds : List (Deposit X)) : Marginal X := ds.foldl deposit .empty

theorem deposit_eq_addLog (m : Marginal X) (d : Deposit X) :
    m.deposit d = m.addLog d.value d.log := by
  cases d <;> rfl

theorem ofDeposits_append_singleton (ds : List (Deposit X)) (d : Deposit X) :
    ofDeposits (ds ++ [d]) = (ofDeposits ds).addLog d.value d.log := by
  rw [ofDeposits, List.foldl_append, ← ofDeposits, List.foldl_cons, List.foldl_nil,
    deposit_eq_addLog]

omit [Scalar X] in
/-- No two keys are equal. -/
theorem pairwise_keys (m : Marginal X) : m.keys.Pairwise fun u v => (u == v) = false :=
  List.pairwise_map.2 m.distinct

/-- Insertion adds to the one key that equals the value, or puts the value behind all keys. -/
theorem insert_map (distinct : ks.Pairwise fun u v => (u == v) = false) (v : Value) (l : X) :
    insert v l (ks.map fun k => (k, f k)) =
      (ks.map fun k => (k, if k == v then Scalar.logAddExp (f k) l else f k)) ++
        if v.isIn ks then [] else [(v, Scalar.logAddExp Scalar.negInf l)] := by
  induction ks with
  | nil => rfl
  | cons k ks ih =>
    obtain ⟨apart, distinct⟩ := List.pairwise_cons.1 distinct
    rw [List.map_cons, List.map_cons, insert, Value.isIn_cons]
    cases same : k == v with
    | true =>
      -- The keys behind differ from this one, so none of them equals the value.
      have others : ks.map (fun k => (k, if k == v then Scalar.logAddExp (f k) l else f k)) =
          ks.map fun k => (k, f k) := by
        refine List.map_congr_left fun u hu => ?_
        have other : (u == v) = false := by
          rw [← BEq.congr_right same, BEq.comm]
          exact apart u hu
        rw [other]
        rfl
      rw [others]
      simp
    | false => simp [ih distinct]

omit [Scalar X] in
/-- What is found for a value is what goes with the key that equals it. -/
theorem find?_map (congr : ∀ u, (u == v) = true → f u = f v) (ks : List Value) :
    find? v (ks.map fun k => (k, f k)) = if v.isIn ks then some (f v) else none := by
  induction ks with
  | nil => rfl
  | cons k ks ih =>
    rw [List.map_cons, find?, ih, Value.isIn_cons]
    cases same : k == v with
    | true => simp [congr k same]
    | false => simp

omit [Scalar X] in
/-- What is found for a value is the entry whose key equals it. -/
theorem find?_of_mem {entries : List (Value × X)} (distinct : DistinctKeys entries)
    {e : Value × X} (he : e ∈ entries) (same : (e.1 == v) = true) :
    find? v entries = some e.2 := by
  induction entries with
  | nil => cases he
  | cons c entries ih =>
    obtain ⟨apart, distinct⟩ := List.pairwise_cons.1 distinct
    rw [find?]
    rcases List.mem_cons.1 he with rfl | he
    · rw [if_pos same]
    · have other : (c.1 == v) = false := by
        rw [← BEq.congr_right same]
        exact apart e he
      rw [if_neg (Bool.eq_false_iff.1 other), ih distinct he]

omit [Scalar X] in
/-- Nothing is found for a value that has no entry. -/
theorem find?_of_not_isIn {entries : List (Value × X)}
    (new : v.isIn (entries.map Prod.fst) = false) : find? v entries = none := by
  induction entries with
  | nil => rfl
  | cons e entries ih =>
    obtain ⟨u, l⟩ := e
    rw [List.map_cons, Value.isIn_cons, Bool.or_eq_false_iff] at new
    rw [find?, new.1, ih new.2]
    rfl

/-- The entries that deposits build: the values that occur, each with what is put on it. -/
theorem entries_ofDeposits (ds : List (Deposit X)) :
    (ofDeposits ds).entries =
      (Value.distinct (ds.map Deposit.value)).map fun v => (v, Deposit.gathered v ds) := by
  induction ds using List.reverseRecOn with
  | nil => rfl
  | append_singleton ds d ih =>
    have distinct : (Value.distinct (ds.map Deposit.value)).Pairwise
        fun u v => (u == v) = false := by
      have apart := (ofDeposits ds).pairwise_keys
      rw [keys, ih] at apart
      simpa [Function.comp_def] using apart
    have entries : (ofDeposits (ds ++ [d])).entries =
        insert d.value d.log (ofDeposits ds).entries := by
      rw [ofDeposits_append_singleton]
      rfl
    rw [entries, ih, insert_map distinct, List.map_append, List.map_singleton,
      Value.distinct_append_singleton, List.map_append]
    congr 1
    · exact List.map_congr_left fun v _ => by rw [Deposit.gathered_append_singleton]
    · rw [Value.isIn_distinct]
      cases occurs : d.value.isIn (ds.map Deposit.value) with
      | true => rfl
      | false =>
        have first : Deposit.gathered d.value (ds ++ [d]) =
            Scalar.logAddExp Scalar.negInf d.log := by
          rw [Deposit.gathered_append_singleton, Deposit.gathered_of_not_isIn occurs, if_pos BEq.rfl]
        rw [if_neg Bool.false_ne_true, if_neg Bool.false_ne_true, List.map_singleton, first]

theorem keys_ofDeposits (ds : List (Deposit X)) :
    (ofDeposits ds).keys = Value.distinct (ds.map Deposit.value) := by
  rw [keys, entries_ofDeposits, List.map_map]
  exact List.map_id _

/-- A marginal is an insertion-ordered fold, in any arithmetic. Its keys are the first occurrences
of the values that mass is put on, in order and no two of them equal; the log-mass of a value is the
fold of what is put on that value, in order, and does not depend on what is put on others; the total
is the fold of the log-masses in the order of the keys; and normalization keeps the order of the
keys that it keeps. -/
theorem ofDeposits_folds (ds : List (Deposit X)) :
    (ofDeposits ds).keys = Value.distinct (ds.map Deposit.value) ∧
    (ofDeposits ds).keys.Pairwise (fun u v => (u == v) = false) ∧
    (∀ v, (ofDeposits ds).logMass? v =
      if v.isIn (ds.map Deposit.value) then some (Deposit.gathered v ds) else none) ∧
    (ofDeposits ds).logTotal =
      ((ofDeposits ds).keys.map fun v => Deposit.gathered v ds).foldl
        Scalar.logAddExp Scalar.negInf ∧
    ∀ n, (ofDeposits ds).normalized = .ok n →
      n.keys = (ofDeposits ds).keys.filter fun v =>
        Scalar.lt Scalar.negInf (Deposit.gathered v ds) := by
  refine ⟨keys_ofDeposits ds, (ofDeposits ds).pairwise_keys, fun v => ?_, ?_, fun n normal => ?_⟩
  · have congr : ∀ u, (u == v) = true → Deposit.gathered u ds = Deposit.gathered v ds :=
      fun u same => Deposit.gathered_congr same ds
    rw [logMass?, entries_ofDeposits, find?_map congr, Value.isIn_distinct]
  · rw [logTotal, keys_ofDeposits, entries_ofDeposits, List.foldl_map, List.foldl_map]
  · unfold normalized at normal
    split at normal
    · obtain rfl := Except.ok.inj normal
      change (rescale _ (ofDeposits ds).entries).map Prod.fst = _
      rw [rescale, List.map_map, keys_ofDeposits, entries_ofDeposits, List.filter_map, List.map_map]
      exact List.map_id _
    · cases normal

/-- Zero and minus zero are one value, which is listed as it was met first. -/
example : (ofDeposits [.logMass (.float (-0.0)) (-1), .logMass .unit 0, .logMass (.float 0) 0] :
    Marginal Float).keys.map Value.text = ["-0", "()"] := by decide +kernel

end Marginal

end Posterior
