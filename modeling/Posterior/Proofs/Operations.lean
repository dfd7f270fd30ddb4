import Mathlib.Algebra.Ring.Int.Defs
import Posterior.Primitive
import Posterior.Run

/-!
# The arithmetic of programs

An operation on two integers gives the exact result or, where that has more than 64 bits, none.
If one of two numbers is a float, the other is widened and the result is a float. Texts can be added.
All else is a mismatch of the first argument that is not a number. These rules give each pair of
values one result, and the continuation is resumed exactly if that is a value.

## Main definitions

* `Primitive.Operation` — addition, subtraction and multiplication
* `Value.Widens` — the double that a number is computed with
* `Primitive.Operation.Yields` — the rules of arithmetic

## Main results

* `Value.fitInt?_eq_some_iff`, `Value.fitInt?_eq_none_iff` — which integers have 64 bits
* `Primitive.Operation.yields_iff` — the rules determine the result
* `Primitive.Operation.perform_yields` — the continuation gets the result, if there is one
-/

namespace Posterior

/-! ### Numbers -/

namespace Value

variable {i : ℤ} {c : Int64} {v x y : Value} {a : Float} {operation : String} {e : Failure}

theorem fitInt?_eq_some_iff : fitInt? i = some c ↔ c.toInt = i := by
  unfold fitInt?
  split
  · next fits =>
    obtain ⟨low, high⟩ := fits
    -- Conversion to 64 bits drops the higher ones, of which there are none here.
    have exact : (Int64.ofInt i).toInt = i := by
      refine Int64.toInt_ofInt_of_le ?_ (Int.lt_of_le_sub_one high)
      simpa using low
    rw [Option.some.injEq]
    constructor
    · rintro rfl
      exact exact
    · rintro rfl
      exact Int64.ofInt_toInt c
  · next wide =>
    refine iff_of_false (by simp) ?_
    rintro rfl
    exact wide ⟨c.minValue_le_toInt, c.toInt_le⟩

theorem fitInt?_eq_none_iff : fitInt? i = none ↔ i < -2 ^ 63 ∨ 2 ^ 63 ≤ i := by
  have low : Int64.minValue.toInt = -9223372036854775808 := rfl
  have high : Int64.maxValue.toInt = 9223372036854775807 := rfl
  unfold fitInt?
  split <;> simp <;> omega

/-- The double that a number is computed with where not all numbers are integers. -/
inductive Widens : Value → Float → Prop
  /-- The double nearest to an integer. -/
  | int (i : Int64) : Widens (.int i) (Float.ofInt i.toInt)
  /-- A float as it is. -/
  | float (x : Float) : Widens (.float x) x

/-- An integer or a float. -/
def IsNumber (v : Value) : Prop := ∃ a, v.Widens a

theorem asNumber?_eq_some_iff : v.asNumber? = some a ↔ v.Widens a := by
  constructor
  · intro read
    cases v with
    | int i => obtain rfl := Option.some.inj read; exact .int i
    | float x => obtain rfl := Option.some.inj read; exact .float x
    | _ => cases read
  · rintro (_ | _) <;> rfl

theorem expectNumber_eq_ok_iff : v.expectNumber operation = .ok a ↔ v.Widens a := by
  rw [← asNumber?_eq_some_iff, expectNumber]
  cases (v.asNumber? : Option Float) <;> simp

theorem expectNumber_eq_error_iff : (v.expectNumber operation : Result Float) = .error e ↔
    ¬ v.IsNumber ∧ e = .typeMismatch operation "number" v.kind := by
  have widened : (v.asNumber? : Option Float) = none ↔ ¬ v.IsNumber := by
    simp only [IsNumber, ← asNumber?_eq_some_iff, ← Option.ne_none_iff_exists', not_not]
  rw [← widened, expectNumber]
  cases (v.asNumber? : Option Float) <;> simp [eq_comm]

end Value

namespace Primitive

/-! ### Operations and their rules -/

/-- The arithmetic operations. -/
inductive Operation where
  /-- Addition, also of texts. -/
  | plus
  /-- Subtraction. -/
  | minus
  /-- Multiplication. -/
  | times

namespace Operation

/-- The name that failures give. -/
def name : Operation → String
  | plus => "plus"
  | minus => "minus"
  | times => "times"

/-- The operation on integers of any size. -/
def exact : Operation → ℤ → ℤ → ℤ
  | plus, m, n => m + n
  | minus, m, n => m - n
  | times, m, n => m * n

/-- The operation on doubles. -/
def rounded : Operation → Float → Float → Float
  | plus, a, b => a + b
  | minus, a, b => a - b
  | times, a, b => a * b

/-- The operation on values. -/
def result : Operation → Value → Value → Result Value
  | plus => Value.plus
  | minus => Value.minus
  | times => Value.times

/-- The operation in programs. -/
def perform {X : Type} {S : Type → Type} {K : Type} [Resumable X S K] :
    Operation → K → Value → Value → Action X S K
  | plus => Primitive.plus
  | minus => Primitive.minus
  | times => Primitive.times

/-- Two texts that are added. -/
def Joins (op : Operation) (x y : Value) : Prop :=
  op = plus ∧ ∃ s t, x = .str s ∧ y = .str t

/-- The rules of arithmetic. -/
inductive Yields : Operation → Value → Value → Result Value → Prop
  /-- The exact result, which has 64 bits. -/
  | int {op : Operation} {a b c : Int64} (exact : c.toInt = op.exact a.toInt b.toInt) :
    Yields op (.int a) (.int b) (.ok (.int c))
  /-- An exact result that has more. -/
  | overflow {op : Operation} {a b : Int64}
    (wide : op.exact a.toInt b.toInt < -2 ^ 63 ∨ 2 ^ 63 ≤ op.exact a.toInt b.toInt) :
    Yields op (.int a) (.int b) (.error (.arithmetic
      (op.name ++ " overflowed on " ++ a.toInt.repr ++ " and " ++ b.toInt.repr)))
  /-- The rounded result on numbers of which one is a float. -/
  | float {op : Operation} {x y : Value} {a b : Float} (left : x.Widens a) (right : y.Widens b)
    (some : x.kind = "float" ∨ y.kind = "float") : Yields op x y (.ok (.float (op.rounded a b)))
  /-- One text after the other. -/
  | str (s t : String) : Yields plus (.str s) (.str t) (.ok (.str (s ++ t)))
  /-- The first argument is no number. -/
  | left {op : Operation} {x y : Value} (other : ¬ x.IsNumber) (apart : ¬ op.Joins x y) :
    Yields op x y (.error (.typeMismatch op.name "number" x.kind))
  /-- The second argument is no number, while the first is. -/
  | right {op : Operation} {x y : Value} (number : x.IsNumber) (other : ¬ y.IsNumber) :
    Yields op x y (.error (.typeMismatch op.name "number" y.kind))

variable {op : Operation} {x y : Value} {r : Result Value}

theorem result_of_not_joins (apart : ¬ op.Joins x y) :
    op.result x y = Value.arithmetic op.name op.exact op.rounded x y := by
  cases op with
  | plus =>
    change x.plus y = _
    unfold Value.plus
    split
    · next s t => exact absurd ⟨rfl, s, t, rfl, rfl⟩ apart
    · rfl
  | minus => rfl
  | times => rfl

theorem arithmetic_of_not_ints {name : String} {exact : ℤ → ℤ → ℤ} {rounded : Float → Float → Float}
    (apart : ¬ (x.kind = "int" ∧ y.kind = "int")) :
    Value.arithmetic name exact rounded x y = do
      let a ← x.expectNumber name
      let b ← y.expectNumber name
      return .float (rounded a b) := by
  unfold Value.arithmetic
  split
  · exact absurd ⟨rfl, rfl⟩ apart
  · rfl

theorem not_joins_of_isNumber (number : x.IsNumber) : ¬ op.Joins x y := by
  rintro ⟨-, s, -, rfl, -⟩
  obtain ⟨a, widened⟩ := number
  cases widened

theorem isNumber_of_kind (int : x.kind = "int") : x.IsNumber := by
  cases x with
  | int i => exact ⟨_, .int i⟩
  | _ => simp [Value.kind] at int

/-- What the rules say of two values is the result. -/
theorem Yields.result_eq (yields : op.Yields x y r) : op.result x y = r := by
  -- Texts are looked at first and integers next, so each rule has to rule out what comes before it.
  cases yields with
  | @int _ a b c exact =>
    rw [result_of_not_joins (not_joins_of_isNumber ⟨_, .int a⟩), Value.arithmetic]
    simp [Value.fitInt?_eq_some_iff.2 exact]
  | @overflow _ a b wide =>
    rw [result_of_not_joins (not_joins_of_isNumber ⟨_, .int a⟩), Value.arithmetic]
    simp [Value.fitInt?_eq_none_iff.2 wide]
  | float left right some =>
    rw [result_of_not_joins (not_joins_of_isNumber ⟨_, left⟩), arithmetic_of_not_ints ?_,
      Value.expectNumber_eq_ok_iff.2 left, Value.expectNumber_eq_ok_iff.2 right]
    · rfl
    · rintro ⟨first, second⟩
      simp [first, second] at some
  | str s t => rfl
  | left other apart =>
    rw [result_of_not_joins apart, arithmetic_of_not_ints fun ints => other (isNumber_of_kind ints.1),
      Value.expectNumber_eq_error_iff.2 ⟨other, rfl⟩]
    rfl
  | right number other =>
    obtain ⟨a, widened⟩ := number
    rw [result_of_not_joins (not_joins_of_isNumber ⟨a, widened⟩),
      arithmetic_of_not_ints fun ints => other (isNumber_of_kind ints.2),
      Value.expectNumber_eq_ok_iff.2 widened, Value.expectNumber_eq_error_iff.2 ⟨other, rfl⟩]
    rfl

/-- There is a rule for any two values. -/
theorem exists_yields (op : Operation) (x y : Value) : ∃ r, op.Yields x y r := by
  by_cases joins : op.Joins x y
  · obtain ⟨rfl, s, t, rfl, rfl⟩ := joins
    exact ⟨_, .str s t⟩
  -- Otherwise both arguments have to be numbers, and the first is asked first.
  by_cases first : x.IsNumber
  case neg => exact ⟨_, .left first joins⟩
  by_cases second : y.IsNumber
  case neg => exact ⟨_, .right first second⟩
  obtain ⟨a, left⟩ := first
  obtain ⟨b, right⟩ := second
  cases left with
  | float a => exact ⟨_, .float (.float a) right (.inl rfl)⟩
  | int i =>
    cases right with
    | float b => exact ⟨_, .float (.int i) (.float b) (.inr rfl)⟩
    | int j =>
      cases fits : Value.fitInt? (op.exact i.toInt j.toInt) with
      | some c => exact ⟨_, .int (Value.fitInt?_eq_some_iff.1 fits)⟩
      | none => exact ⟨_, .overflow (Value.fitInt?_eq_none_iff.1 fits)⟩

/-- The rules determine the result. -/
theorem yields_iff : op.Yields x y r ↔ op.result x y = r := by
  refine ⟨Yields.result_eq, ?_⟩
  rintro rfl
  obtain ⟨r, yields⟩ := exists_yields op x y
  rwa [yields.result_eq]

theorem perform_eq {X : Type} {S : Type → Type} {K : Type} [Resumable X S K] (op : Operation)
    (k : K) (x y : Value) :
    (op.perform k x y : Action X S K) = .continueWith k (op.result x y) := by
  cases op <;> rfl

/-- Arithmetic neither wraps nor loses the continuation. For any two values there is one result by
the rules. If it is a value, the continuation is resumed with it. If it is a failure, the operation
fails with it whatever the continuation is, and a run that gets there ends at once, with the router
as it was. -/
theorem perform_yields (op : Operation) (x y : Value) :
    ∃ r, (∀ r', op.Yields x y r' ↔ r' = r) ∧
      ∀ (X : Type) (S : Type → Type) (K : Type) [Strategy X S] [Resumable X S K] (k : K),
        match r with
        | .ok v => (op.perform k x y : Action X S K) = Resumable.resume k v
        | .error e => (op.perform k x y : Action X S K) = .fail e ∧
          ∀ (fuel : ℕ) (router : Router X S K),
            Run.advance (fuel + 1) (op.perform k x y) router = some (.error e, router) := by
  refine ⟨op.result x y, fun r => yields_iff.trans eq_comm, fun X S K _ _ k => ?_⟩
  rw [perform_eq]
  cases op.result x y with
  | ok v => rfl
  | error e => exact ⟨rfl, fun _ _ => rfl⟩

example : times.result (.int Int64.minValue) (.int (-1)) =
    .error (.arithmetic "times overflowed on -9223372036854775808 and -1") := by rfl

end Operation

end Primitive

end Posterior
