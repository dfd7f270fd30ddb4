import Mathlib.Algebra.Order.Archimedean.Real.Basic
import Mathlib.Algebra.Order.Field.Power
import Mathlib.Data.EReal.Operations
import Mathlib.Data.Int.Log
import Mathlib.Tactic.FieldSimp
import Mathlib.Tactic.Linarith
import Mathlib.Tactic.Positivity

/-!
# The double nearest to a number

The doubles between a power of two and the next lie on a grid, with 53 binary digits before the next
power; below the least of these powers the grid gets no finer. A number that is not negative is
rounded to the nearest point of its grid, a half going to the even one, and what is rounded beyond
the largest double is infinite.

## Main definitions

* `Double.halfEven` — the nearest integer
* `Double.rounded` — the nearest point of the grid
* `Double.nearest` — the nearest double, as an extended real
* `Double.IsValue` — the nonnegative numbers that doubles stand for

## Main results

* `Double.IsValue.le_nearest`, `Double.IsValue.nearest_le` — rounding does not pass a double
* `Double.nearest_pos_iff` — what is rounded to nothing
* `Double.rounded_lt_of_lt` — what is not rounded to infinity
-/

namespace Posterior.Double

variable {x r c : ℝ} {n : ℕ}

/-! ### The nearest integer -/

/-- The integer nearest to a number that is not negative; a half goes to the even neighbour. -/
noncomputable def halfEven (x : ℝ) : ℕ :=
  -- Twice the number is compared with twice the middle between the neighbours.
  if x + x < (2 * ⌊x⌋₊ + 1 : ℕ) then ⌊x⌋₊
  else if (2 * ⌊x⌋₊ + 1 : ℕ) < x + x then ⌊x⌋₊ + 1
  else ⌊x⌋₊ + ⌊x⌋₊ % 2

/-- The fraction decides. -/
theorem halfEven_eq (x : ℝ) :
    halfEven x = if 2 * (x - ⌊x⌋₊) < 1 then ⌊x⌋₊
      else if 1 < 2 * (x - ⌊x⌋₊) then ⌊x⌋₊ + 1
      else ⌊x⌋₊ + ⌊x⌋₊ % 2 := by
  have below : x + x < (2 * ⌊x⌋₊ + 1 : ℕ) ↔ 2 * (x - ⌊x⌋₊) < 1 := by
    push_cast
    constructor <;> intro <;> linarith
  have above : ((2 * ⌊x⌋₊ + 1 : ℕ) : ℝ) < x + x ↔ 1 < 2 * (x - ⌊x⌋₊) := by
    push_cast
    constructor <;> intro <;> linarith
  simp only [halfEven, below, above]

theorem floor_le_halfEven (x : ℝ) : ⌊x⌋₊ ≤ halfEven x := by
  unfold halfEven
  split_ifs <;> omega

theorem halfEven_le_floor_succ (x : ℝ) : halfEven x ≤ ⌊x⌋₊ + 1 := by
  unfold halfEven
  split_ifs <;> omega

theorem le_halfEven (le : n ≤ x) : n ≤ halfEven x :=
  (Nat.le_floor le).trans (floor_le_halfEven x)

/-- An integer is not passed from less than a half above it. -/
theorem halfEven_le_of_lt (nonneg : 0 ≤ x) (lt : 2 * x < 2 * n + 1) : halfEven x ≤ n := by
  have le : ⌊x⌋₊ ≤ n := Nat.le_of_lt_succ ((Nat.floor_lt nonneg).2 (by push_cast; linarith))
  rcases le.lt_or_eq with below | whole
  · exact (halfEven_le_floor_succ x).trans below
  · -- The fraction is less than a half.
    have near : 2 * (x - ⌊x⌋₊) < 1 := by
      rw [whole]
      linarith
    rw [halfEven_eq, if_pos near, whole]

theorem halfEven_le (nonneg : 0 ≤ x) (le : x ≤ n) : halfEven x ≤ n :=
  halfEven_le_of_lt nonneg (by linarith)

/-- Up to a half, a half included, the nearest integer is zero. -/
theorem halfEven_eq_zero_iff : halfEven x = 0 ↔ 2 * x ≤ 1 := by
  constructor
  · intro zero
    have none : ⌊x⌋₊ = 0 := Nat.le_zero.1 (zero ▸ floor_le_halfEven x)
    by_contra above
    rw [halfEven_eq, none, Nat.cast_zero, sub_zero, if_neg (by linarith), if_pos (by linarith)] at zero
    cases zero
  · intro half
    have none : ⌊x⌋₊ = 0 := Nat.floor_eq_zero.2 (by linarith)
    rw [halfEven_eq, none, Nat.cast_zero, sub_zero]
    split_ifs with near far
    · rfl
    · exact absurd far (not_lt.2 half)
    · rfl

theorem halfEven_mono {y : ℝ} (le : x ≤ y) : halfEven x ≤ halfEven y := by
  rcases (Nat.floor_mono le).eq_or_lt with same | less
  · -- The larger number is not rounded down if the smaller is rounded up.
    rw [halfEven_eq, halfEven_eq, ← same]
    split_ifs <;> first | omega | linarith
  · exact ((halfEven_le_floor_succ x).trans less).trans (floor_le_halfEven y)

/-! ### The grid -/

/-- The power of two that the grid at a number is spaced by. -/
noncomputable def grid (r : ℝ) : ℤ := max (Int.log 2 r - 52) (-1074)

/-- The nearest point of the grid. -/
noncomputable def rounded (r : ℝ) : ℝ :=
  halfEven (r / ((2 : ℕ) : ℝ) ^ grid r) * ((2 : ℕ) : ℝ) ^ grid r

theorem rounded_eq (r : ℝ) : rounded r = halfEven (r / 2 ^ grid r) * 2 ^ grid r := by
  rw [rounded, Nat.cast_ofNat]

/-- The points of the grids. -/
inductive OnGrid : ℝ → Prop
  | mk {k : ℕ} {f : ℤ} : k < 2 ^ 53 → -1074 ≤ f → OnGrid (k * 2 ^ f)

theorem OnGrid.zero : OnGrid 0 := by
  simpa using OnGrid.mk (k := 0) (f := 0) (by norm_num) (by norm_num)

theorem OnGrid.nonneg (point : OnGrid c) : 0 ≤ c := by
  cases point
  positivity

theorem two_zpow_add (a b : ℤ) : (2 : ℝ) ^ (a + b) = 2 ^ a * 2 ^ b := zpow_add₀ two_ne_zero a b

theorem rounded_nonneg (r : ℝ) : 0 ≤ rounded r := by
  unfold rounded
  positivity

/-- A number has at most 53 digits before its grid. -/
theorem lt_of_grid (r : ℝ) : r < 2 ^ (53 : ℕ) * 2 ^ grid r := by
  have below : r < (2 : ℝ) ^ (Int.log 2 r + 1) := by
    exact_mod_cast Int.lt_zpow_succ_log_self Nat.one_lt_two r
  have covered : Int.log 2 r + 1 ≤ 53 + grid r := by
    unfold grid
    omega
  calc r < 2 ^ (Int.log 2 r + 1) := below
    _ ≤ 2 ^ (53 + grid r) := zpow_le_zpow_right₀ one_le_two covered
    _ = 2 ^ (53 : ℕ) * 2 ^ grid r := by rw [two_zpow_add]; norm_cast

/-- It has all of them unless the grid is the finest. -/
theorem le_of_grid (pos : 0 < r) (coarse : -1074 < grid r) : 2 ^ (52 : ℕ) * 2 ^ grid r ≤ r := by
  have log : 52 + grid r = Int.log 2 r := by
    unfold grid at coarse ⊢
    omega
  calc (2 : ℝ) ^ (52 : ℕ) * 2 ^ grid r = 2 ^ (52 + grid r) := by rw [two_zpow_add]; norm_cast
    _ = 2 ^ Int.log 2 r := by rw [log]
    _ ≤ r := by exact_mod_cast Int.zpow_log_le_self Nat.one_lt_two pos

/-- A rounded number has at most 53 digits, or is the next power of two. -/
theorem halfEven_div_grid_le (nonneg : 0 ≤ r) : halfEven (r / 2 ^ grid r) ≤ 2 ^ 53 := by
  have unit : (0 : ℝ) < 2 ^ grid r := by positivity
  apply halfEven_le (by positivity)
  rw [div_le_iff₀ unit]
  exact_mod_cast (lt_of_grid r).le

theorem le_halfEven_div_grid (pos : 0 < r) (coarse : -1074 < grid r) :
    2 ^ 52 ≤ halfEven (r / 2 ^ grid r) := by
  have unit : (0 : ℝ) < 2 ^ grid r := by positivity
  apply le_halfEven
  rw [le_div_iff₀ unit]
  exact_mod_cast le_of_grid pos coarse

/-- Points of coarser grids are points of this one. -/
theorem exists_natCast_of_le {f g : ℤ} (le : g ≤ f) (k : ℕ) :
    ∃ n : ℕ, (k * 2 ^ f : ℝ) / 2 ^ g = n := by
  obtain ⟨j, rfl⟩ := Int.le.dest le
  refine ⟨k * 2 ^ j, ?_⟩
  rw [add_comm, two_zpow_add, ← mul_assoc, mul_div_assoc, div_self (by positivity), mul_one,
    zpow_natCast]
  norm_cast

/-- All points are multiples of the smallest that is positive. -/
theorem OnGrid.eq_natCast_mul (point : OnGrid c) : ∃ n : ℕ, c = n * 2 ^ (-1074 : ℤ) := by
  cases point with
  | @mk k f _ lowest =>
    obtain ⟨n, whole⟩ := exists_natCast_of_le lowest k
    exact ⟨n, (div_eq_iff (by positivity)).1 whole⟩

/-- A point of a finer grid than that of a number is smaller than the number. -/
theorem lt_of_finer {k : ℕ} {f : ℤ} (digits : k < 2 ^ 53) (lowest : -1074 ≤ f) (finer : f < grid r)
    (pos : 0 < r) : (k * 2 ^ f : ℝ) < 2 ^ (52 : ℕ) * 2 ^ grid r ∧ 2 ^ (52 : ℕ) * 2 ^ grid r ≤ r := by
  have few : (k : ℝ) < 2 ^ (53 : ℤ) := by exact_mod_cast digits
  refine ⟨?_, le_of_grid pos (lowest.trans_lt finer)⟩
  calc (k * 2 ^ f : ℝ) < 2 ^ (53 : ℤ) * 2 ^ f := by gcongr
    _ = 2 ^ (53 + f) := (two_zpow_add _ _).symm
    _ ≤ 2 ^ (52 + grid r) := zpow_le_zpow_right₀ one_le_two (by omega)
    _ = 2 ^ (52 : ℕ) * 2 ^ grid r := by rw [two_zpow_add]; norm_cast

/-- A point of a grid that is not above a number is not above the rounded number either. -/
theorem OnGrid.le_rounded (point : OnGrid c) (le : c ≤ r) : c ≤ rounded r := by
  rcases point.nonneg.eq_or_lt with rfl | positive
  · exact rounded_nonneg r
  have pos : 0 < r := positive.trans_le le
  have unit : (0 : ℝ) < 2 ^ grid r := by positivity
  obtain @⟨k, f, digits, lowest⟩ := point
  rw [rounded_eq]
  rcases le_or_gt (grid r) f with coarser | finer
  · obtain ⟨n, whole⟩ := exists_natCast_of_le coarser k
    have reached : n ≤ halfEven (r / 2 ^ grid r) := by
      apply le_halfEven
      rw [← whole]
      gcongr
    rw [← div_le_iff₀ unit, whole]
    exact_mod_cast reached
  · obtain ⟨below, -⟩ := lt_of_finer digits lowest finer pos
    refine below.le.trans ?_
    gcongr
    exact_mod_cast le_halfEven_div_grid pos (lowest.trans_lt finer)

/-- A point of a grid that is not below a number is not below the rounded number either. -/
theorem OnGrid.rounded_le (point : OnGrid c) (nonneg : 0 ≤ r) (le : r ≤ c) : rounded r ≤ c := by
  rcases nonneg.eq_or_lt with rfl | pos
  · have zero : halfEven (0 / 2 ^ grid 0) = 0 := by
      rw [zero_div, halfEven_eq_zero_iff]
      simp
    rwa [rounded_eq, zero, Nat.cast_zero, zero_mul]
  have unit : (0 : ℝ) < 2 ^ grid r := by positivity
  obtain @⟨k, f, digits, lowest⟩ := point
  rcases le_or_gt (grid r) f with coarser | finer
  · obtain ⟨n, whole⟩ := exists_natCast_of_le coarser k
    have reached : halfEven (r / 2 ^ grid r) ≤ n := by
      apply halfEven_le (by positivity)
      rw [← whole]
      gcongr
    rw [rounded_eq, ← le_div_iff₀ unit, whole]
    exact_mod_cast reached
  · obtain ⟨below, least⟩ := lt_of_finer digits lowest finer pos
    exact absurd le (not_le.2 (below.trans_le least))

/-- The points of the grids are left as they are. -/
theorem OnGrid.rounded_eq (point : OnGrid c) : rounded c = c :=
  le_antisymm (point.rounded_le point.nonneg le_rfl) (point.le_rounded le_rfl)

/-- Larger numbers are rounded to points that are not smaller. -/
theorem rounded_mono {r' : ℝ} (nonneg : 0 ≤ r) (le : r ≤ r') : rounded r ≤ rounded r' := by
  rcases nonneg.eq_or_lt with rfl | pos
  · exact (OnGrid.zero.rounded_le le_rfl le_rfl).trans (rounded_nonneg r')
  have grids : grid r ≤ grid r' := by
    have := Int.log_mono_right (b := 2) pos le
    unfold grid
    omega
  rcases grids.eq_or_lt with same | finer
  · rw [rounded_eq, rounded_eq, ← same]
    gcongr
    exact halfEven_mono (by gcongr)
  · -- The power of two where the coarser grid begins lies between them.
    have point : OnGrid ((2 ^ 52 : ℕ) * 2 ^ grid r') := .mk (by norm_num) (le_max_right _ _)
    have least := le_of_grid (pos.trans_le le) ((le_max_right _ _).trans_lt finer)
    have most : r ≤ 2 ^ (52 : ℕ) * 2 ^ grid r' := by
      calc r ≤ 2 ^ (53 : ℕ) * 2 ^ grid r := (lt_of_grid r).le
        _ = 2 ^ (52 : ℕ) * 2 ^ (1 + grid r) := by rw [two_zpow_add]; ring
        _ ≤ 2 ^ (52 : ℕ) * 2 ^ grid r' := by
          gcongr
          · exact one_le_two
          · omega
    exact (point.rounded_le nonneg (by exact_mod_cast most)).trans
      (point.le_rounded (by exact_mod_cast least))

/-- Half the distance from zero to the next point, and no more, is rounded to zero. -/
theorem rounded_eq_zero_iff (nonneg : 0 ≤ r) : rounded r = 0 ↔ r ≤ 2 ^ (-1075 : ℤ) := by
  have unit : (0 : ℝ) < 2 ^ grid r := by positivity
  have half : (2 : ℝ) ^ (-1074 : ℤ) = 2 * 2 ^ (-1075 : ℤ) := by
    rw [← zpow_one_add₀ two_ne_zero]
    norm_num
  rw [rounded_eq, mul_eq_zero, or_iff_left unit.ne', Nat.cast_eq_zero,
    halfEven_eq_zero_iff, ← mul_div_assoc, div_le_one unit]
  rcases nonneg.eq_or_lt with rfl | pos
  · simp only [mul_zero]
    exact iff_of_true unit.le (by positivity)
  rcases (le_max_right (Int.log 2 r - 52) (-1074)).eq_or_lt with finest | coarse
  · rw [grid, ← finest, half]
    constructor <;> intro <;> linarith
  · -- On a coarser grid neither can be.
    have least := le_of_grid pos coarse
    have fine : (2 : ℝ) ^ (-1075 : ℤ) < 2 ^ grid r :=
      zpow_lt_zpow_right₀ one_lt_two (by unfold grid; omega)
    exact iff_of_false (by linarith) (by linarith)

/-- What is less than half a step above the largest double is not rounded beyond it. -/
theorem rounded_lt_of_lt (nonneg : 0 ≤ r) (small : r < 2 ^ (1024 : ℤ) - 2 ^ (970 : ℤ)) :
    rounded r < 2 ^ (1024 : ℤ) := by
  have step : (2 : ℝ) ^ (971 : ℤ) = 2 * 2 ^ (970 : ℤ) := zpow_one_add₀ two_ne_zero 970
  have top : (2 : ℝ) ^ (1024 : ℤ) = 2 ^ (53 : ℕ) * 2 ^ (971 : ℤ) := by
    rw [← zpow_natCast]
    exact two_zpow_add 53 971
  have unit : (0 : ℝ) < 2 ^ (970 : ℤ) := by positivity
  rcases lt_or_ge (grid r) 971 with finer | coarse
  · -- The power of two where the coarsest grid begins is not passed.
    have point : OnGrid ((2 ^ 52 : ℕ) * 2 ^ (971 : ℤ)) := .mk (by norm_num) (by norm_num)
    have most : r ≤ (2 ^ 52 : ℕ) * 2 ^ (971 : ℤ) := by
      calc r ≤ 2 ^ (53 : ℕ) * 2 ^ grid r := (lt_of_grid r).le
        _ ≤ 2 ^ (53 : ℕ) * 2 ^ (970 : ℤ) := by
          gcongr
          · exact one_le_two
          · omega
        _ = (2 ^ 52 : ℕ) * 2 ^ (971 : ℤ) := by
          rw [step]
          push_cast
          ring
    refine (point.rounded_le nonneg most).trans_lt ?_
    rw [top]
    gcongr
    norm_num
  · -- On the coarsest grid the next integer would have one digit more.
    have pos : 0 < r := nonneg.lt_of_ne (by rintro rfl; simp [grid] at coarse)
    have same : grid r = 971 := by
      have below : (2 : ℝ) ^ (52 + grid r) < 2 ^ (1024 : ℤ) := by
        calc (2 : ℝ) ^ (52 + grid r) = 2 ^ (52 : ℕ) * 2 ^ grid r := by rw [two_zpow_add]; norm_cast
          _ ≤ r := le_of_grid pos (by omega)
          _ < 2 ^ (1024 : ℤ) := small.trans (sub_lt_self _ unit)
      have := (zpow_lt_zpow_iff_right₀ one_lt_two).1 below
      omega
    have fewer : halfEven (r / 2 ^ (971 : ℤ)) < 2 ^ 53 := by
      rw [top, step] at small
      refine Nat.lt_of_le_sub_one (by norm_num) (halfEven_le_of_lt (by positivity) ?_)
      rw [step, ← mul_div_assoc, div_lt_iff₀ (by positivity)]
      push_cast
      linarith
    rw [rounded_eq, same, top]
    gcongr
    exact_mod_cast fewer

/-! ### Extended reals -/

/-- The double nearest to a number that is not negative; infinite from the power of two on that the
largest double is rounded up to. -/
noncomputable def nearest (v : EReal) : EReal :=
  if v = ⊤ ∨ ((2 : ℕ) : ℝ) ^ (1024 : ℤ) ≤ rounded v.toReal then ⊤ else rounded v.toReal

/-- The nonnegative numbers that doubles stand for. -/
inductive IsValue : EReal → Prop
  /-- Infinity. -/
  | top : IsValue ⊤
  /-- A point of a grid, unless it is too large. -/
  | finite {c : ℝ} : OnGrid c → c < 2 ^ (1024 : ℤ) → IsValue c

variable {v w : EReal}

theorem nearest_top : nearest ⊤ = ⊤ := if_pos (.inl rfl)

theorem nearest_coe (r : ℝ) :
    nearest r = if 2 ^ (1024 : ℤ) ≤ rounded r then ⊤ else (rounded r : EReal) := by
  simp only [nearest, EReal.coe_ne_top, false_or, EReal.toReal_coe, Nat.cast_ofNat]

theorem IsValue.zero : IsValue 0 := .finite .zero (by positivity)

/-- The powers of two in the range of doubles. -/
theorem IsValue.two_zpow {e : ℤ} (lowest : -1074 ≤ e) (small : e < 1024) :
    IsValue ((2 ^ e : ℝ) : EReal) := by
  have point := OnGrid.mk (k := 1) (by norm_num) lowest
  rw [Nat.cast_one, one_mul] at point
  exact .finite point (zpow_lt_zpow_right₀ one_lt_two small)

theorem IsValue.one : IsValue 1 := by
  simpa using IsValue.two_zpow (e := 0) (by norm_num) (by norm_num)

theorem IsValue.nonneg (value : IsValue v) : 0 ≤ v := by
  cases value with
  | top => exact le_top
  | finite point _ => exact EReal.coe_nonneg.2 point.nonneg

/-- A number that is not negative is infinite or real. -/
theorem eq_top_or_coe (nonneg : 0 ≤ v) : v = ⊤ ∨ ∃ r : ℝ, 0 ≤ r ∧ v = r := by
  induction v with
  | bot => exact absurd nonneg (not_le.2 EReal.bot_lt_zero)
  | top => exact .inl rfl
  | coe r => exact .inr ⟨r, EReal.coe_nonneg.1 nonneg, rfl⟩

/-- A double that is not above a number is not above the nearest one either. -/
theorem IsValue.le_nearest (value : IsValue w) (le : w ≤ v) : w ≤ nearest v := by
  obtain rfl | ⟨r, -, rfl⟩ := eq_top_or_coe (value.nonneg.trans le)
  · exact nearest_top ▸ le_top
  cases value with
  | top => exact absurd le (not_le.2 (EReal.coe_lt_top r))
  | finite point _ =>
    rw [nearest_coe]
    split
    · exact le_top
    · exact EReal.coe_le_coe_iff.2 (point.le_rounded (EReal.coe_le_coe_iff.1 le))

/-- A double that is not below a number is not below the nearest one either. -/
theorem IsValue.nearest_le (value : IsValue w) (nonneg : 0 ≤ v) (le : v ≤ w) : nearest v ≤ w := by
  cases value with
  | top => exact le_top
  | finite point small =>
    obtain rfl | ⟨r, nonneg', rfl⟩ := eq_top_or_coe nonneg
    · exact absurd le (not_le.2 (EReal.coe_lt_top _))
    -- The double is finite, so the rounded number stays below the power where infinity begins.
    have bound := point.rounded_le nonneg' (EReal.coe_le_coe_iff.1 le)
    rw [nearest_coe, if_neg (not_le.2 (bound.trans_lt small))]
    exact EReal.coe_le_coe_iff.2 bound

/-- Larger numbers are rounded to doubles that are not smaller. -/
theorem nearest_mono (nonneg : 0 ≤ v) (le : v ≤ w) : nearest v ≤ nearest w := by
  obtain rfl | ⟨r', -, rfl⟩ := eq_top_or_coe (nonneg.trans le)
  · exact nearest_top ▸ le_top
  obtain rfl | ⟨r, nonneg', rfl⟩ := eq_top_or_coe nonneg
  · exact absurd le (not_le.2 (EReal.coe_lt_top r'))
  have bound := rounded_mono nonneg' (EReal.coe_le_coe_iff.1 le)
  rw [nearest_coe, nearest_coe]
  split_ifs with large large'
  · rfl
  · exact absurd (large.trans bound) large'
  · exact le_top
  · exact EReal.coe_le_coe_iff.2 bound

/-- Doubles are left as they are. -/
theorem IsValue.nearest_eq (value : IsValue v) : nearest v = v :=
  le_antisymm (value.nearest_le value.nonneg le_rfl) (value.le_nearest le_rfl)

/-- Half the smallest positive double, and no more, is rounded to nothing. -/
theorem nearest_pos_iff (nonneg : 0 ≤ v) :
    0 < nearest v ↔ ((2 ^ (-1075 : ℤ) : ℝ) : EReal) < v := by
  obtain rfl | ⟨r, nonneg', rfl⟩ := eq_top_or_coe nonneg
  · simp [nearest_top]
  have some : rounded r ≠ 0 ↔ 2 ^ (-1075 : ℤ) < r := (rounded_eq_zero_iff nonneg').not.trans not_le
  rw [EReal.coe_lt_coe_iff, ← some, nearest_coe]
  split
  · next large =>
    have pos : 0 < rounded r := lt_of_lt_of_le (by positivity) large
    exact iff_of_true EReal.zero_lt_top pos.ne'
  · rw [EReal.coe_pos]
    exact (rounded_nonneg r).lt_iff_ne.trans ne_comm

/-- The difference of doubles is not rounded to nothing, since all of them are multiples of the
smallest. -/
theorem IsValue.nearest_sub_pos (first : IsValue v) (second : IsValue w) (less : w < v) :
    0 < nearest (v - w) := by
  have apart : ((2 ^ (-1075 : ℤ) : ℝ) : EReal) < v - w := by
    cases second with
    | top => exact absurd less not_top_lt
    | finite point' _ =>
      cases first with
      | top => exact EReal.coe_lt_top _
      | finite point _ =>
        obtain ⟨n, rfl⟩ := point.eq_natCast_mul
        obtain ⟨n', rfl⟩ := point'.eq_natCast_mul
        have unit : (0 : ℝ) < 2 ^ (-1074 : ℤ) := by positivity
        rw [EReal.coe_lt_coe_iff, mul_lt_mul_iff_left₀ unit] at less
        rw [← EReal.coe_sub, EReal.coe_lt_coe_iff, ← sub_mul]
        have step : (1 : ℝ) ≤ n - n' := by
          have : n' + 1 ≤ n := by exact_mod_cast less
          rw [le_sub_iff_add_le, add_comm]
          exact_mod_cast this
        calc (2 : ℝ) ^ (-1075 : ℤ) < 2 ^ (-1074 : ℤ) := zpow_lt_zpow_right₀ one_lt_two (by norm_num)
          _ = 1 * 2 ^ (-1074 : ℤ) := (one_mul _).symm
          _ ≤ (n - n') * 2 ^ (-1074 : ℤ) := by gcongr
  have nonneg : 0 ≤ v - w := le_trans (EReal.coe_nonneg.2 (by positivity)) apart.le
  exact (nearest_pos_iff nonneg).2 apart

/-! ### Counts -/

theorem one_le_nearest_natCast (pos : 0 < n) : 1 ≤ nearest (n : ℝ) := by
  apply IsValue.one.le_nearest
  exact_mod_cast Nat.one_le_cast.2 pos

theorem two_le_nearest_natCast (many : 2 ≤ n) : ((2 : ℝ) : EReal) ≤ nearest (n : ℝ) := by
  have value : IsValue ((2 : ℝ) : EReal) := by
    simpa using IsValue.two_zpow (e := 1) (by norm_num) (by norm_num)
  apply value.le_nearest
  rw [EReal.coe_le_coe_iff]
  exact_mod_cast many

/-- What can be addressed is not rounded beyond the first number that cannot. -/
theorem nearest_natCast_le (small : n < 2 ^ 63) :
    nearest (n : ℝ) ≤ ((2 ^ (63 : ℤ) : ℝ) : EReal) := by
  have value : IsValue ((2 ^ (63 : ℤ) : ℝ) : EReal) := .two_zpow (by norm_num) (by norm_num)
  apply value.nearest_le (EReal.coe_nonneg.2 n.cast_nonneg)
  rw [EReal.coe_le_coe_iff]
  exact_mod_cast small.le

end Posterior.Double
