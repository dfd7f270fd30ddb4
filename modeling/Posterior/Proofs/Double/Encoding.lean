import Posterior.Decimal.Binary
import Posterior.Proofs.Double.Rounding

/-!
# Doubles and their bits

## Main definitions

* `Double.reading` — an unpacked double as a signed number

## Main results

* `Double.read_eq` — the bits of a double are those of its unpacked form
* `Double.unpack_pack` — packing keeps what fits, and makes the rest infinite
-/

namespace Posterior.Double

open Float.Model (Format UnpackedFloat)
open Float.Model.UnpackedFloat

variable {s : Sign} {m : ℕ} {e : ℤ} {pos : 0 < m}

/-- An unpacked double as a signed number. -/
def reading : UnpackedFloat → Decimal.Reading
  | .notANumber => .nan
  | .infinity s => .infinite (s == .negative)
  | .zero s => .finite ⟨s == .negative, 0, Decimal.minExponent⟩
  | .finite s m e _ => .finite ⟨s == .negative, m, e⟩

@[simp] theorem reading_notANumber : reading .notANumber = .nan := rfl

@[simp] theorem reading_infinity (s : Sign) : reading (.infinity s) = .infinite (s == .negative) :=
  rfl

@[simp] theorem reading_zero (s : Sign) :
    reading (.zero s) = .finite ⟨s == .negative, 0, Decimal.minExponent⟩ := rfl

@[simp] theorem reading_finite : reading (.finite s m e pos) = .finite ⟨s == .negative, m, e⟩ := rfl

/-- The hidden bit stands before the fraction. -/
theorem toNat_append_fraction (v : BitVec 52) : (1#1 ++ v).toNat = v.toNat + Decimal.hiddenBit := by
  rw [BitVec.toNat_append, ← Nat.shiftLeft_add_eq_or_of_lt v.isLt, add_comm]
  rfl

section Fields

variable (b : BitVec 64)

theorem toNat_unpackMantissa :
    (@unpackMantissa .binary64 b).toNat = b.toNat % Decimal.hiddenBit := by
  rw [unpackMantissa, BitVec.toNat_cast, BitVec.extractLsb_toNat]
  rfl

theorem toNat_unpackExponent :
    (@unpackExponent .binary64 b).toNat = b.toNat / Decimal.hiddenBit % 2048 := by
  rw [unpackExponent, BitVec.toNat_cast, BitVec.extractLsb_toNat, Nat.shiftRight_eq_div_pow]
  rfl

theorem ofBitVec_unpackSign :
    (Sign.ofBitVec (@unpackSign .binary64 b) == .negative) =
      decide (0x8000000000000000 ≤ b.toNat) := by
  have field : (@unpackSign .binary64 b).toNat = b.toNat / 2 ^ 63 := by
    change (BitVec.extractLsb 63 63 b).toNat = _
    rw [BitVec.extractLsb_toNat, Nat.shiftRight_eq_div_pow]
    have := b.isLt
    omega
  have clear : @unpackSign .binary64 b = 0#1 ↔ ¬ 0x8000000000000000 ≤ b.toNat := by
    rw [← BitVec.toNat_inj, field]
    change b.toNat / 2 ^ 63 = 0 ↔ _
    omega
  rw [Sign.ofBitVec]
  split
  · next zero => exact (decide_eq_false (clear.1 zero)).symm
  · next one => exact (decide_eq_true (by_contra (mt clear.2 one))).symm

/-- The fields of a double's bits are those of its unpacked form. -/
theorem readBits_eq : Decimal.readBits b.toNat = reading (unpack .binary64 b) := by
  have field := toNat_unpackExponent b
  have fraction := toNat_unpackMantissa b
  have small : b.toNat / Decimal.hiddenBit % 2048 < 2048 := Nat.mod_lt _ (by decide)
  have full : @unpackExponent .binary64 b = -1#_ ↔
      b.toNat / Decimal.hiddenBit % 2048 = 2047 := by
    rw [← BitVec.toNat_inj, field]
    rfl
  have empty : @unpackExponent .binary64 b = 0#_ ↔
      b.toNat / Decimal.hiddenBit % 2048 = 0 := by
    rw [← BitVec.toNat_inj, field]
    rfl
  have none : @unpackMantissa .binary64 b = 0#_ ↔ b.toNat % Decimal.hiddenBit = 0 := by
    rw [← BitVec.toNat_inj, fraction]
    rfl
  -- Both tell the same cases apart, in the same order.
  unfold Decimal.readBits
  delta unpack
  dsimp only
  by_cases top : b.toNat / Decimal.hiddenBit % 2048 = 2047
  · rw [if_pos top, if_pos (full.2 top)]
    by_cases zero : b.toNat % Decimal.hiddenBit = 0
    · rw [if_pos zero, if_pos (none.2 zero), reading_infinity, ofBitVec_unpackSign]
    · rw [if_neg zero, if_neg (mt none.1 zero), reading_notANumber]
  rw [if_neg top, if_neg (mt full.1 top)]
  by_cases low : b.toNat / Decimal.hiddenBit % 2048 = 0
  · rw [if_pos low, if_pos (empty.2 low)]
    by_cases zero : b.toNat % Decimal.hiddenBit = 0
    · rw [dif_pos (none.2 zero), reading_zero, ofBitVec_unpackSign, zero]
    · rw [dif_neg (mt none.1 zero), reading_finite, ofBitVec_unpackSign, field, fraction, low]
      rfl
  · rw [if_neg low, if_neg (mt empty.1 low), reading_finite, ofBitVec_unpackSign, field,
      toNat_append_fraction, fraction]
    congr 2
    change _ - 1 + (-1074 : ℤ) = _ - (1023 + 52)
    omega

/-- The reading of a double is its unpacked form. -/
theorem read_eq (x : Float) : Decimal.read x = reading x.toModel.unpack := readBits_eq _

end Fields

/-! ### Packing -/

/-- The sign stands before the exponent. -/
theorem ofBitVec_unpackSign_packComponents (s : Sign) (v : BitVec 11) (w : BitVec 52) :
    Sign.ofBitVec (unpackSign (packComponents .binary64 s v w)) = s := by
  have first : unpackSign (packComponents .binary64 s v w) = s.toBitVec := by
    change BitVec.extractLsb' 63 1 (s.toBitVec ++ v ++ w) = _
    rw [BitVec.extractLsb'_append_eq_of_le (by decide),
      BitVec.extractLsb'_append_eq_of_le (by decide)]
    exact BitVec.extractLsb'_eq_self
  rw [first]
  cases s <;> rfl

/-- The unpacked form of finite bits is canonical, and its exponent is not too large. -/
theorem canonical_of_unpack {b : BitVec 64} (unpacked : unpack .binary64 b = .finite s m e pos) :
    Canonical m e ∧ e ≤ 971 := by
  have found : Decimal.readBits b.toNat = .finite ⟨s == .negative, m, e⟩ := by
    rw [readBits_eq, unpacked, reading_finite]
  generalize b.toNat = bits at found
  have digits : bits % 2 ^ 52 < 2 ^ 52 := Nat.mod_lt _ (by decide)
  have field : bits / 2 ^ 52 % 2048 < 2048 := Nat.mod_lt _ (by decide)
  have hidden : Decimal.hiddenBit = 2 ^ 52 := rfl
  have lowest : Decimal.minExponent = -1074 := rfl
  simp only [Decimal.readBits, hidden, lowest] at found
  split_ifs at found
  · obtain ⟨-, rfl, rfl⟩ := Decimal.Binary.mk.inj (Decimal.Reading.finite.inj found)
    exact ⟨⟨by omega, le_rfl, fun coarse => absurd coarse (lt_irrefl _)⟩, by norm_num⟩
  · obtain ⟨-, rfl, rfl⟩ := Decimal.Binary.mk.inj (Decimal.Reading.finite.inj found)
    exact ⟨⟨by omega, by omega, fun _ => by omega⟩, by omega⟩

theorem unpack_signedInfinity (s : Sign) :
    unpack .binary64 (packedInfinity .binary64 s) = .infinity s := by
  cases s <;> rfl

theorem unpack_signedZero (s : Sign) : unpack .binary64 (packedZero .binary64 s) = .zero s := by
  cases s <;> rfl

/-- A normal double: the hidden bit is set. -/
theorem unpack_normal {field : ℕ} (least : 0 < field) (most : field < 2047)
    (same : m % 2 ^ 52 + 2 ^ 52 = m) :
    unpack .binary64 (packComponents .binary64 s (BitVec.ofNat 11 field) (BitVec.ofNat 52 m)) =
      .finite s m (field - 1075) pos := by
  -- The exponent field is neither of the two that are kept for other doubles.
  have notFull : BitVec.ofNat 11 field ≠ -1#11 := by
    rw [ne_eq, ← BitVec.toNat_inj, BitVec.toNat_ofNat, Nat.mod_eq_of_lt (by omega)]
    exact fun full => absurd full (by change field ≠ 2047; omega)
  have notEmpty : BitVec.ofNat 11 field ≠ 0#11 := by
    rw [ne_eq, ← BitVec.toNat_inj, BitVec.toNat_ofNat, Nat.mod_eq_of_lt (by omega)]
    exact least.ne'
  delta unpack
  dsimp only
  rw [unpackExponent_packComponents, if_neg notFull, if_neg notEmpty, UnpackedFloat.finite.injEq,
    unpackMantissa_packComponents]
  refine ⟨ofBitVec_unpackSign_packComponents .., (toNat_append_fraction _).trans ?_, ?_⟩
  · rwa [BitVec.toNat_ofNat]
  · rw [BitVec.toNat_ofNat, Nat.mod_eq_of_lt (by omega)]
    rfl

/-- A double below the normal ones: the exponent is the lowest. -/
theorem unpack_subnormal (small : m < 2 ^ 52) :
    unpack .binary64 (packComponents .binary64 s 0#11 (BitVec.ofNat 52 m)) =
      .finite s m (-1074) pos := by
  have some : BitVec.ofNat 52 m ≠ 0#52 := by
    rw [ne_eq, ← BitVec.toNat_inj, BitVec.toNat_ofNat, Nat.mod_eq_of_lt small]
    exact pos.ne'
  delta unpack
  dsimp only
  rw [unpackExponent_packComponents, if_neg (show 0#11 ≠ -1#11 by decide), if_pos rfl,
    dif_neg (unpackMantissa_packComponents ▸ some), UnpackedFloat.finite.injEq,
    unpackMantissa_packComponents, BitVec.toNat_ofNat, Nat.mod_eq_of_lt small]
  exact ⟨ofBitVec_unpackSign_packComponents .., rfl, rfl⟩

/-- Packing keeps a canonical form, unless its exponent is too large: then it is infinite. -/
theorem unpack_pack (canonical : Canonical m e) :
    (Float.Model.pack (.finite s m e pos)).unpack =
      if e ≤ 971 then .finite s m e pos else .infinity s := by
  obtain ⟨digits, lowest, full⟩ := canonical
  -- The hidden bit is told by the length of the mantissa.
  have log : m.log2 + 1 = 53 ↔ 2 ^ 52 ≤ m := by
    have most := (Nat.log2_lt pos.ne').2 digits
    rw [← Nat.le_log2 pos.ne']
    omega
  obtain ⟨n, above⟩ := Int.le.dest lowest
  have field : (e + (1023 : ℕ) + (52 : ℕ)).toNat = n + 1 := by omega
  change unpack .binary64 (if 2048 ≤ (e + (1023 : ℕ) + (52 : ℕ)).toNat + 1 then
      packedInfinity .binary64 s
    else if m.log2 + 1 = 53 then
      packComponents .binary64 s (BitVec.ofNat 11 (e + (1023 : ℕ) + (52 : ℕ)).toNat) (BitVec.ofNat 52 m)
    else packComponents .binary64 s 0#11 (BitVec.ofNat 52 m)) = _
  rw [field]
  rcases le_or_gt e 971 with fits | large
  · rw [if_pos fits, if_neg (show ¬ 2048 ≤ n + 1 + 1 by omega)]
    by_cases normal : 2 ^ 52 ≤ m
    · obtain rfl : e = ((n + 1 : ℕ) : ℤ) - 1075 := by omega
      rw [if_pos (log.2 normal)]
      exact unpack_normal n.succ_pos (by omega) (by omega)
    · obtain rfl : e = -1074 := by omega
      rw [if_neg (mt log.1 normal)]
      exact unpack_subnormal (by omega)
  · rw [if_neg (not_le.2 large), if_pos (show 2048 ≤ n + 1 + 1 by omega)]
    exact unpack_signedInfinity s

end Posterior.Double
