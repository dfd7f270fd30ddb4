import Posterior.Proofs.Deposits
import Posterior.Proofs.Double.Encoding

/-!
# Values as keys

Equality of values does not look at all that a value holds: a zero has no sign, and what is not a
number is one value, however deep in a list it stands. Nothing else is left out, and what is left out
is left out of what a value feeds to a hash as well. So containers that are keyed by values work as
if each class of equal values were one key, whatever function hashes what is fed to it: what they
find, what they add to and how many keys they hold is told by equality alone.

## Main definitions

* `Double.IsZeroPattern`, `Double.IsNaNPattern` — the bits of zeros and of what is not a number
* `Value.Matches` — the same value, up to signs of zeros and what is not a number
* `Value.hashing` — values hashed by what they feed

## Main results

* `Value.canonicalBits_ofBits_eq_iff` — which bit patterns are one float
* `Value.same_iff_matches` — equality of values, item by item
* `Value.lawful_keys` — equality, hashing and keyed containers agree
-/

namespace Posterior

/-! ### Bit patterns of doubles -/

namespace Double

open Float.Model (UnpackedFloat)
open Float.Model.UnpackedFloat

variable {b : UInt64} {x : Float}

/-- The bit pattern of a zero: nothing but the sign may be set. -/
def IsZeroPattern (b : UInt64) : Prop := b.toNat % 0x8000000000000000 = 0

/-- A bit pattern of what is not a number: the exponent is full and the fraction is not empty. -/
def IsNaNPattern (b : UInt64) : Prop := 0x7ff0000000000000 < b.toNat % 0x8000000000000000

/-- Without its sign, a bit pattern is the exponent field followed by the fraction. -/
theorem exists_fields (n : ℕ) : ∃ field fraction,
    n / Decimal.hiddenBit % 2048 = field ∧ n % Decimal.hiddenBit = fraction ∧
      field < 2048 ∧ fraction < 0x10000000000000 ∧
        n % 0x8000000000000000 = field * 0x10000000000000 + fraction := by
  have high : n / 0x10000000000000 / 2048 = n / 0x8000000000000000 := Nat.div_div_eq_div_mul ..
  refine ⟨_, _, rfl, rfl, Nat.mod_lt _ (by decide), Nat.mod_lt _ (by decide), ?_⟩
  change n % 0x8000000000000000 =
    n / 0x10000000000000 % 2048 * 0x10000000000000 + n % 0x10000000000000
  omega

theorem readBits_eq_nan_iff (n : ℕ) :
    Decimal.readBits n = .nan ↔ 0x7ff0000000000000 < n % 0x8000000000000000 := by
  obtain ⟨field, fraction, high, low, narrow, short, whole⟩ := exists_fields n
  rw [Decimal.readBits, high, low, whole]
  split_ifs <;> simp <;> omega

theorem readBits_eq_zero_iff (n : ℕ) :
    (∃ negative e, Decimal.readBits n = .finite ⟨negative, 0, e⟩) ↔
      n % 0x8000000000000000 = 0 := by
  obtain ⟨field, fraction, high, low, narrow, short, whole⟩ := exists_fields n
  rw [Decimal.readBits, high, low, whole]
  split_ifs <;> simp [Decimal.hiddenBit] <;> omega

/-- A double is not a number if its bits say so. -/
theorem isNaN_iff : x.isNaN = true ↔ IsNaNPattern x.toBits := by
  rw [IsNaNPattern, ← readBits_eq_nan_iff, ← Decimal.read, read_eq]
  change x.toModel.unpack.isNaN = true ↔ _
  cases x.toModel.unpack with
  | notANumber => exact iff_of_true rfl rfl
  | _ => exact iff_of_false Bool.false_ne_true Decimal.Reading.noConfusion

/-- A double equals zero if its bits are those of a zero. -/
theorem beq_zero_iff : (x == 0) = true ↔ IsZeroPattern x.toBits := by
  rw [IsZeroPattern, ← readBits_eq_zero_iff, ← Decimal.read, read_eq]
  change (x.toModel.unpack.compare (.zero .positive) == some .eq) = true ↔ _
  rw [beq_iff_eq]
  cases x.toModel.unpack with
  | notANumber => exact iff_of_false (fun same => by cases same) (by simp)
  | zero s => exact iff_of_true (by cases s <;> rfl) ⟨_, _, rfl⟩
  | infinity s => exact iff_of_false (fun same => by cases s <;> cases same) (by simp)
  | finite s m e pos =>
    rw [reading_finite]
    exact iff_of_false (fun same => by cases s <;> cases same) (by simp [pos.ne'])

/-- No two bit patterns are read as the same number. -/
theorem readBits_inj {n k : ℕ} (hn : n < 2 ^ 64) (hk : k < 2 ^ 64)
    (number : Decimal.readBits n ≠ .nan) (same : Decimal.readBits n = Decimal.readBits k) :
    n = k := by
  obtain ⟨field, fraction, high, low, narrow, short, whole⟩ := exists_fields n
  obtain ⟨field', fraction', high', low', narrow', short', whole'⟩ := exists_fields k
  rw [Decimal.readBits, high, low] at number same
  rw [Decimal.readBits, high', low'] at same
  split_ifs at number same <;>
    simp [Decimal.hiddenBit, Decimal.minExponent] at number same <;> omega

/-- A bit pattern that is a number is kept. -/
theorem toBits_ofBits (number : ¬ IsNaNPattern b) : (Float.ofBits b).toBits = b := by
  have kept :
      (Float.Model.pack (unpack .binary64 b.toBitVec)).unpack = unpack .binary64 b.toBitVec := by
    cases unpacked : unpack .binary64 b.toBitVec with
    | notANumber => rfl
    | infinity s => exact unpack_signedInfinity s
    | zero s => exact unpack_signedZero s
    | finite s m e pos =>
      obtain ⟨canonical, small⟩ := canonical_of_unpack unpacked
      rw [unpack_pack canonical, if_pos small]
  have same := (readBits_eq (Float.ofBits b).toBits.toBitVec).trans
    ((congrArg reading kept).trans (readBits_eq b.toBitVec).symm)
  rw [IsNaNPattern, ← readBits_eq_nan_iff] at number
  apply UInt64.toNat_inj.1
  exact readBits_inj (UInt64.toNat_lt _) (UInt64.toNat_lt _) (same ▸ number) same

theorem unpack_eq_notANumber_iff : unpack .binary64 b.toBitVec = .notANumber ↔ IsNaNPattern b := by
  have found : Decimal.readBits b.toNat = reading (unpack .binary64 b.toBitVec) :=
    readBits_eq b.toBitVec
  rw [IsNaNPattern, ← readBits_eq_nan_iff, found]
  cases unpack .binary64 b.toBitVec with
  | notANumber => exact iff_of_true rfl rfl
  | _ => exact iff_of_false UnpackedFloat.noConfusion Decimal.Reading.noConfusion

/-- All bit patterns that are not a number make the same double. -/
theorem ofBits_of_nan (nan : IsNaNPattern b) : Float.ofBits b = .ofModel (.pack .notANumber) := by
  change Float.ofModel (.pack (unpack .binary64 b.toBitVec)) = _
  rw [unpack_eq_notANumber_iff.2 nan]

theorem toBits_inj {y : Float} : x.toBits = y.toBits ↔ x = y := by
  refine ⟨fun same => ?_, congrArg _⟩
  obtain ⟨⟨_, _⟩⟩ := x
  obtain ⟨⟨_, _⟩⟩ := y
  cases same
  rfl

theorem IsNaNPattern.fields (nan : IsNaNPattern b) :
    @unpackExponent .binary64 b.toBitVec = -1#_ ∧ @unpackMantissa .binary64 b.toBitVec ≠ 0#_ := by
  obtain ⟨field, fraction, high, low, narrow, short, whole⟩ := exists_fields b.toNat
  have full : field = 2047 ∧ fraction ≠ 0 := by
    rw [IsNaNPattern] at nan
    omega
  constructor
  · rw [← BitVec.toNat_inj, toNat_unpackExponent]
    exact high.trans full.1
  · rw [ne_eq, ← BitVec.toNat_inj, toNat_unpackMantissa]
    exact fun none => full.2 (low.symm.trans none)

/-- A double is what its bits make. -/
theorem ofBits_toBits (x : Float) : Float.ofBits x.toBits = x := by
  by_cases nan : IsNaNPattern x.toBits
  · -- Of the bit patterns that are not a number, doubles have only one.
    have canonical := x.toModel.valid.eq_packedNaN nan.fields.1 nan.fields.2
    rw [ofBits_of_nan nan, ← toBits_inj, ← UInt64.toBitVec_inj]
    exact canonical.symm
  · exact toBits_inj.1 (toBits_ofBits nan)

end Double

namespace Value

open Double

variable {a b : UInt64} {x y : Float} {u v : Value}

/-! ### Equality, item by item -/

theorem canonicalBits_ofBits (b : UInt64) : canonicalBits (.ofBits b) =
    if b.toNat % 0x8000000000000000 = 0 then 0
    else if 0x7ff0000000000000 < b.toNat % 0x8000000000000000 then 0x7ff8000000000000
    else b := by
  by_cases nan : IsNaNPattern b
  · rw [ofBits_of_nan nan]
    rw [IsNaNPattern] at nan
    rw [if_neg (by omega), if_pos nan]
    rfl
  · have zero : (Float.ofBits b == 0) = true ↔ b.toNat % 0x8000000000000000 = 0 := by
      rw [beq_zero_iff, toBits_ofBits nan, IsZeroPattern]
    have number : (Float.ofBits b).isNaN = true ↔ IsNaNPattern b := by
      rw [isNaN_iff, toBits_ofBits nan]
    rw [IsNaNPattern] at number
    rw [canonicalBits, toBits_ofBits nan]
    simp only [zero, number]

/-- Two bit patterns are one float if they are the same, or both are those of a zero, or neither is
a number. -/
theorem canonicalBits_ofBits_eq_iff : canonicalBits (.ofBits a) = canonicalBits (.ofBits b) ↔
    a = b ∨ (IsZeroPattern a ∧ IsZeroPattern b) ∨ (IsNaNPattern a ∧ IsNaNPattern b) := by
  rw [canonicalBits_ofBits, canonicalBits_ofBits, IsZeroPattern, IsZeroPattern, IsNaNPattern,
    IsNaNPattern]
  split_ifs <;> simp only [← UInt64.toNat_inj] <;> simp <;> omega

theorem canonicalBits_eq_iff : canonicalBits x = canonicalBits y ↔
    x = y ∨ ((x == 0) = true ∧ (y == 0) = true) ∨ (x.isNaN = true ∧ y.isNaN = true) := by
  have bits := canonicalBits_ofBits_eq_iff (a := x.toBits) (b := y.toBits)
  rwa [ofBits_toBits, ofBits_toBits, toBits_inj, ← beq_zero_iff, ← beq_zero_iff,
    ← isNaN_iff, ← isNaN_iff] at bits

/-- The same value, but that a zero may have another sign and that what is not a number may be
anything else that is none, at any depth. -/
inductive Matches : Value → Value → Prop
  | unit : Matches .unit .unit
  | bool (b : Bool) : Matches (.bool b) (.bool b)
  | int (i : Int64) : Matches (.int i) (.int i)
  | float {x y : Float} :
    x = y ∨ ((x == 0) = true ∧ (y == 0) = true) ∨ (x.isNaN = true ∧ y.isNaN = true) →
      Matches (.float x) (.float y)
  | str (s : String) : Matches (.str s) (.str s)
  | list {as bs : List Value} : List.Forall₂ Matches as bs → Matches (.list as) (.list bs)

mutual

theorem matches_of_same : ∀ {u v : Value}, same u v = true → Matches u v
  | unit, v, h => by cases v <;> simp_all [same, Matches.unit]
  | bool _, v, h => by cases v <;> simp_all [same, Matches.bool]
  | int _, v, h => by cases v <;> simp_all [same, Matches.int]
  | float x, v, h => by
    cases v with
    | float y => exact .float (canonicalBits_eq_iff.1 (by simpa [same] using h))
    | _ => simp [same] at h
  | str _, v, h => by cases v <;> simp_all [same, Matches.str]
  | list as, v, h => by
    cases v with
    | list bs => exact .list (forall₂_of_sameItems h)
    | _ => simp [same] at h

theorem forall₂_of_sameItems : ∀ {as bs : List Value}, sameItems as bs = true →
    List.Forall₂ Matches as bs
  | [], bs, h => by cases bs <;> simp_all [sameItems]
  | a :: as, bs, h => by
    cases bs with
    | nil => simp [sameItems] at h
    | cons b bs =>
      simp only [sameItems, Bool.and_eq_true] at h
      exact .cons (matches_of_same h.1) (forall₂_of_sameItems h.2)

end

mutual

theorem same_of_matches : ∀ {u v : Value}, Matches u v → same u v = true
  | unit, _, .unit => rfl
  | bool _, _, .bool _ => by simp [same]
  | int _, _, .int _ => by simp [same]
  | float _, _, .float h => by simpa [same] using canonicalBits_eq_iff.2 h
  | str _, _, .str _ => by simp [same]
  | list _, _, .list h => sameItems_of_forall₂ h

theorem sameItems_of_forall₂ : ∀ {as bs : List Value}, List.Forall₂ Matches as bs →
    sameItems as bs = true
  | [], _, .nil => rfl
  | _ :: _, _, .cons first others => by
    rw [sameItems, same_of_matches first, sameItems_of_forall₂ others]
    rfl

end

/-- Values are equal when they are the same up to signs of zeros and what is not a number. -/
theorem same_iff_matches : (u == v) = true ↔ Matches u v := ⟨matches_of_same, same_of_matches⟩

theorem kind_eq_of_same (h : (u == v) = true) : u.kind = v.kind := by
  cases same_iff_matches.1 h <;> rfl

/-! ### Keyed containers -/

/-- Values hashed by what they feed. -/
@[reducible]
def hashing (hasher : List Token → UInt64) : Hashable Value := ⟨fun v => hasher v.feed⟩

/-- Equal values have the same hash, whatever the function that makes it of what they feed. -/
theorem lawfulHashable_hashing (hasher : List Token → UInt64) :
    @LawfulHashable Value _ (hashing hasher) :=
  letI := hashing hasher
  ⟨fun _ _ h => congrArg hasher (feed_eq_of_same h)⟩

/-- The values of a list, in a hash set. -/
def hashed (hasher : List Token → UInt64) (vs : List Value) : @Std.HashSet Value _ (hashing hasher) :=
  letI := hashing hasher
  .ofList vs

/-- A hash set holds as many values as there are first occurrences. -/
theorem size_hashed (hasher : List Token → UInt64) (vs : List Value) :
    (hashed hasher vs).size = (distinct vs).length := by
  let _ := hashing hasher
  have := lawfulHashable_hashing hasher
  induction vs using List.reverseRecOn with
  | nil => rfl
  | append_singleton vs v ih =>
    have added : hashed hasher (vs ++ [v]) = (hashed hasher vs).insert v := by
      rw [hashed, hashed, Std.HashSet.ofList_eq_insertMany_empty, Std.HashSet.insertMany_append,
        Std.HashSet.insertMany_list_singleton, Std.HashSet.ofList_eq_insertMany_empty]
    have found : v ∈ hashed hasher vs ↔ v.isIn (distinct vs) = true := by
      rw [hashed, Std.HashSet.mem_ofList, List.contains_iff_exists_mem_beq, isIn_distinct, isIn,
        List.any_eq_true]
      simp only [BEq.comm]
    rw [added, Std.HashSet.size_insert, ih, distinct_append_singleton]
    simp only [found]
    split <;> simp

end Value

namespace Marginal

variable {X : Type} {u v : Value} {l : X}

/-- The entries of a marginal, in a hash map. -/
def hashed (hasher : List Value.Token → UInt64) (m : Marginal X) :
    @Std.HashMap Value X _ (Value.hashing hasher) :=
  letI := Value.hashing hasher
  .ofList m.entries

/-- A hash map finds what is found by equality alone. -/
theorem getElem?_hashed (hasher : List Value.Token → UInt64) (m : Marginal X) (v : Value) :
    (m.hashed hasher)[v]? = m.logMass? v := by
  let _ := Value.hashing hasher
  have := Value.lawfulHashable_hashing hasher
  cases found : v.isIn m.keys with
  | true =>
    obtain ⟨k, member, same⟩ := List.any_eq_true.1 found
    obtain ⟨e, he, rfl⟩ := List.mem_map.1 member
    rw [logMass?, find?_of_mem m.distinct he same]
    exact Std.HashMap.getElem?_ofList_of_mem same m.distinct he
  | false =>
    have absent : m.keys.contains v = false := by
      rw [← found, Value.isIn, List.contains_eq_any_beq]
      simp only [BEq.comm]
    rw [hashed, Std.HashMap.getElem?_ofList_of_contains_eq_false absent, logMass?,
      find?_of_not_isIn found]

variable [Scalar X]

/-- Mass that is added to a value is found at all values that equal it, and at no other. -/
theorem find?_insert (entries : List (Value × X)) : find? v (insert u l entries) =
    if u == v then some (Scalar.logAddExp ((find? v entries).getD Scalar.negInf) l)
    else find? v entries := by
  induction entries with
  | nil => simp [insert, find?]
  | cons d entries ih =>
    obtain ⟨k, n⟩ := d
    rw [insert]
    cases same : k == u with
    | true => cases other : k == v <;> simp [find?, ← BEq.congr_left same, other]
    | false =>
      cases other : k == v with
      | true =>
        have apart : (u == v) = false := by rw [← BEq.congr_right other, BEq.comm, same]
        simp [find?, other, apart]
      | false => simpa [find?, other] using ih

/-- Mass is added to the key that equals the value, or else the value becomes the last key. -/
theorem keys_insert (entries : List (Value × X)) : (insert u l entries).map Prod.fst =
    entries.map Prod.fst ++ if u.isIn (entries.map Prod.fst) then [] else [u] := by
  induction entries with
  | nil => rfl
  | cons d entries ih =>
    obtain ⟨k, n⟩ := d
    rw [insert]
    cases same : k == u <;> simp [same, ih]

end Marginal

/-- Equality of values is a lawful key. It is an equivalence, under which values of the same kind
differ in nothing but the signs of zeros and in what is not a number, at any depth; in terms of bits,
the zeros are one float, and so is all that is not a number. Equal values feed the same to a hash. So
whatever is made of that, a hash map finds what equality finds; what is added to a value is found
at exactly the values that equal it, and makes a new key if none does; of each class of equal values
in a list one is kept, as many as a hash set holds. -/
theorem Value.lawful_keys {X : Type} [Scalar X] (hasher : List Value.Token → UInt64)
    (m : Marginal X) (vs : List Value) :
    Equivalence (fun u v : Value => (u == v) = true) ∧
    (∀ u v : Value, (u == v) = true ↔ u.Matches v) ∧
    (∀ u v : Value, (u == v) = true → u.kind = v.kind) ∧
    (∀ a b : UInt64, (Value.float (.ofBits a) == .float (.ofBits b)) = true ↔ a = b ∨
      (Double.IsZeroPattern a ∧ Double.IsZeroPattern b) ∨
      (Double.IsNaNPattern a ∧ Double.IsNaNPattern b)) ∧
    (∀ u v : Value, (u == v) = true → u.feed = v.feed) ∧
    (∀ v, (m.hashed hasher)[v]? = m.logMass? v) ∧
    (∀ u l v, (m.addLog u l).logMass? v =
      if u == v then some (Scalar.logAddExp ((m.logMass? v).getD Scalar.negInf) l)
      else m.logMass? v) ∧
    (∀ u l, (m.addLog u l).keys = m.keys ++ if u.isIn m.keys then [] else [u]) ∧
    (∀ v, (Value.distinct vs).countP (fun u => v == u) = if v.isIn vs then 1 else 0) ∧
    (Value.hashed hasher vs).size = (Value.distinct vs).length := by
  refine ⟨⟨fun _ => BEq.rfl, BEq.symm, BEq.trans⟩, fun _ _ => same_iff_matches,
    fun _ _ => kind_eq_of_same, fun a b => ?_, fun _ _ => feed_eq_of_same,
    m.getElem?_hashed hasher, fun _ _ _ => Marginal.find?_insert _, fun _ _ => Marginal.keys_insert _,
    fun v => ?_, size_hashed hasher vs⟩
  · rw [← canonicalBits_ofBits_eq_iff]
    change (canonicalBits _ == canonicalBits _) = true ↔ _
    exact beq_iff_eq
  · split
    · next occurs => exact countP_eq_one (pairwise_distinct vs) (by rw [isIn_distinct, occurs])
    · next absent =>
      rw [← isIn_distinct, isIn, List.any_eq_true, not_exists] at absent
      rw [List.countP_eq_zero]
      exact fun u member same => absent u ⟨member, BEq.symm same⟩

end Posterior
