import Posterior.Proofs.DecimalTexts
import Posterior.Proofs.Double.Encoding
import Posterior.Proofs.Texts
import Posterior.Value.Json

/-!
# Reading values back

The data text of a value is an object whose field names the kind, so what is read is of the kind
that was written, with everything but floats as it was. A float that is infinite or not a number is
written as null, which no float is read from; it stops the whole text from being read, however deep
it stands. Any other float is written as a number, but the arithmetic that numbers are read with
returns most doubles from their shortest decimals and not all. So a value comes back up to what its
floats come back as, one by one.

## Main definitions

* `Value.rereadFloat?` — the double that the data text of a float is read as
* `Value.reread?` — a value with each of its floats as it is read

## Main results

* `Value.intOfNumeral?_integral` — every integer of a word comes back
* `Value.ofData?_toData` — what the data text of a value is read as
* `Value.data_reads_back` — a value comes back unless it holds a float that is not finite
-/

namespace Posterior.Value

open Json

/-! ### Integers -/

theorem digitsValue_toDigits (n : Nat) : Decimal.digitsValue (Nat.toDigits 10 n) = n :=
  Nat.ofDigitChars_toDigits (by decide) (by decide)

theorem toInt?_integral (i : Int64) : (integral i.toInt).toInt? = some i.toInt := by
  have low : Int64.minValue.toInt ≤ i.toInt := i.minValue_le_toInt
  have high : i.toInt < UInt64.size := by
    have := i.toInt_lt
    simp only [UInt64.size]
    omega
  have signed : (if i.toInt < 0 then -(i.toInt.natAbs : Int) else i.toInt.natAbs) = i.toInt := by
    split_ifs <;> omega
  have nonzero : ¬ (i.toInt < 0 ∧ i.toInt.natAbs = 0) := by omega
  simp_all [Numeral.toInt?, integral, digitsValue_toDigits]

/-- Every integer of a word is read back, at both ends of the range. -/
theorem intOfNumeral?_integral (i : Int64) : intOfNumeral? (integral i.toInt) = some i := by
  have high : i.toInt ≤ Int64.maxValue.toInt := i.toInt_le
  simp [intOfNumeral?, toInt?_integral, high]

/-! ### Floats -/

/-- The double that the data text of a float is read as, if that text is a number. -/
def rereadFloat? (x : Float) : Option Float :=
  match readNumeral (floatData x).toList with
  | some (n, []) => n.toFloat?
  | _ => none

-- the power of ten is no double, and the neighbour of this one is read
example : rereadFloat? 1e-23 ≠ some 1e-23 := by decide +kernel

/-- A float is written as a number that is read up to its end, or else as null. -/
theorem floatData_cases (x : Float) :
    (∃ n, readNumeral (floatData x).toList = some (n, [])) ∨ floatData x = "null" := by
  rw [floatData]
  cases Decimal.read x with
  | finite b => exact .inl (Decimal.exists_readNumeral_number b)
  | _ => exact .inr rfl

/-- What is infinite or not a number is written as null. -/
theorem floatData_eq_null {x : Float} (h : x.isFinite = false) : floatData x = "null" := by
  rw [floatData, Double.read_eq]
  change x.toModel.unpack.isFinite = false at h
  cases unpacked : x.toModel.unpack with
  | notANumber => rfl
  | infinity s => rfl
  | zero s | finite s =>
    rw [unpacked] at h
    cases h

theorem rereadFloat?_of_null {x : Float} (null : floatData x = "null") : rereadFloat? x = none := by
  rw [rereadFloat?, null]
  rfl

mutual

/-- A value with each of its floats as the data text of that float is read, if all of them are. -/
def reread? : Value → Option Value
  | float x => (rereadFloat? x).map float
  | list items => (rereadItems? items).map list
  | v => some v

/-- The items of a list with each of their floats as it is read. -/
def rereadItems? : List Value → Option (List Value)
  | [] => some []
  | v :: vs => (reread? v).bind fun w => (rereadItems? vs).map (w :: ·)

end

mutual

/-- A value comes back as it was if each of its floats does. -/
theorem reread?_eq_self : ∀ {v : Value}, (∀ x ∈ v.floats, rereadFloat? x = some x) →
    reread? v = some v
  | unit, _ => rfl
  | bool _, _ => rfl
  | int _, _ => rfl
  | float x, same => by rw [reread?, same x (by simp [floats]), Option.map_some]
  | str _, _ => rfl
  | list items, same => by rw [reread?, rereadItems?_eq_self same, Option.map_some]

theorem rereadItems?_eq_self : ∀ {vs : List Value},
    (∀ x ∈ itemsFloats vs, rereadFloat? x = some x) → rereadItems? vs = some vs
  | [], _ => rfl
  | v :: vs, same => by
    obtain ⟨first, others⟩ := List.forall_mem_append.1 same
    rw [rereadItems?, reread?_eq_self first, rereadItems?_eq_self others, Option.bind_some,
      Option.map_some]

end

mutual

/-- A float that is not read at all, however deep it stands, leaves nothing to be read. -/
theorem reread?_eq_none : ∀ {v : Value} {x : Float}, x ∈ v.floats → rereadFloat? x = none →
    reread? v = none
  | float y, x, inside, lost => by
    obtain rfl : x = y := by simpa [floats] using inside
    rw [reread?, lost, Option.map_none]
  | list items, x, inside, lost => by
    rw [reread?, rereadItems?_eq_none inside lost, Option.map_none]

theorem rereadItems?_eq_none : ∀ {vs : List Value} {x : Float}, x ∈ itemsFloats vs →
    rereadFloat? x = none → rereadItems? vs = none
  | v :: vs, x, inside, lost => by
    rcases List.mem_append.1 inside with first | later
    · rw [rereadItems?, reread?_eq_none first lost, Option.bind_none]
    · simp [rereadItems?, rereadItems?_eq_none later lost]

end

/-! ### Values of any nesting -/

/-- A field that names a kind is an object with one field. -/
theorem readAs_tagged {kind content : String} {j : Json} (read : ReadAsContent content.toList j) :
    ReadAs (tagged kind content).toList (.object [(some kind, j)]) := by
  have text : (tagged kind content).toList =
      '\x7b' :: ((quote kind).toList ++ ':' :: content.toList ++ ['\x7d']) := by
    simp [tagged]
  rw [text]
  exact readAs_object kind read

/-- The data text of a value starts with a quote or a brace. -/
theorem exists_head_data (v : Value) : ∃ c cs, v.toData.toList = c :: cs ∧
    isBlank c = false ∧ c ≠ ']' := by
  cases v with
  | unit => exact ⟨_, _, rfl, by decide⟩
  | _ => exact ⟨'\x7b', _, by simp [toData, tagged]; rfl, by decide⟩

theorem ofItems?_cons (j : Json) (js : List Json) :
    ofItems? (j :: js) = (ofJson? j).bind fun v => (ofItems? js).map (v :: ·) := by
  rw [ofItems?]
  cases ofJson? j <;> cases ofItems? js <;> rfl

theorem itemsData_cons (v w : Value) (vs : List Value) : (itemsData (v :: w :: vs)).toList =
    v.toData.toList ++ ',' :: (itemsData (w :: vs)).toList := by
  simp [itemsData]

/-- The items of a list between brackets are an array. -/
theorem readAs_items {v : Value} {vs : List Value} {js : List Json}
    (read : ReadAsItems (itemsData (v :: vs)).toList js) :
    ReadAs ("[" ++ itemsData (v :: vs) ++ "]").toList (.array js) := by
  obtain ⟨c, ds, start, visible, other⟩ : ∃ c ds, (itemsData (v :: vs)).toList = c :: ds ∧
      isBlank c = false ∧ c ≠ ']' := by
    obtain ⟨c, cs, start, apart⟩ := exists_head_data v
    cases vs with
    | nil => exact ⟨c, cs, start, apart⟩
    | cons w vs => exact ⟨c, _, by rw [itemsData_cons, start, List.cons_append], apart⟩
  have text : ("[" ++ itemsData (v :: vs) ++ "]").toList = '[' :: c :: ds ++ [']'] := by
    simp [start]
  rw [start] at read
  rw [text]
  exact readAs_array visible other read

mutual

/-- The data text of a value is read as a tree, which stands for what comes back of the value. -/
theorem exists_readAs : ∀ v : Value, ∃ j, ReadAs v.toData.toList j ∧ ofJson? j = reread? v
  | unit => ⟨_, readAs_string "Unit", rfl⟩
  | bool b => ⟨_, readAs_tagged (readAs_bool b).content, by simp [ofJson?, reread?]⟩
  | int i => by
    refine ⟨_, readAs_tagged (readAsContent_number (readNumeral_repr i.toInt)), ?_⟩
    simp [ofJson?, intOfNumeral?_integral, reread?]
  | float x => by
    rcases floatData_cases x with ⟨n, read⟩ | null
    · refine ⟨_, readAs_tagged (readAsContent_number read), ?_⟩
      rw [ofJson?, reread?, rereadFloat?, read]
    · -- The text is still read as a tree; it is the tree that stands for no value.
      refine ⟨.object [(some "Float", .null)], ?_, ?_⟩
      · rw [toData, null]
        exact readAs_tagged readAs_null.content
      · rw [reread?, rereadFloat?_of_null null]
        rfl
  | str s => ⟨_, readAs_tagged (readAs_string s).content, by simp [ofJson?, reread?]⟩
  | list [] => ⟨_, readAs_tagged readAs_array_nil.content, rfl⟩
  | list (v :: vs) => by
    obtain ⟨js, read, values⟩ := exists_readAsItems (v :: vs) (by simp)
    refine ⟨_, readAs_tagged (readAs_items read).content, ?_⟩
    rw [ofJson?, values, reread?]

theorem exists_readAsItems : ∀ vs : List Value, vs ≠ [] →
    ∃ js, ReadAsItems (itemsData vs).toList js ∧ ofItems? js = rereadItems? vs
  | [], nonempty => absurd rfl nonempty
  | [v], _ => by
    obtain ⟨j, read, value⟩ := exists_readAs v
    refine ⟨[j], readAsItems_singleton read, ?_⟩
    rw [ofItems?_cons, ofItems?, rereadItems?, rereadItems?, value]
  | v :: w :: vs, _ => by
    obtain ⟨j, read, value⟩ := exists_readAs v
    obtain ⟨js, reads, values⟩ := exists_readAsItems (w :: vs) (by simp)
    refine ⟨j :: js, ?_, ?_⟩
    · rw [itemsData_cons]
      exact readAsItems_cons read reads
    · rw [ofItems?_cons, rereadItems?, value, values]

end

/-- What the data text of a value is read as. -/
theorem ofData?_toData (v : Value) : ofData? none v.toData = reread? v := by
  obtain ⟨j, read, value⟩ := exists_readAs v
  have whole := read (2 * v.toData.toList.length) [] (by omega)
  rw [List.append_nil] at whole
  simp [ofData?, parse?, whole, skipBlanks, value]

/-- A value whose finite floats come back on their own is read back from its data text exactly if
all its floats are finite. If one of them is not, nothing is read, whatever the others come back
as. -/
theorem data_reads_back (v : Value) :
    ((∀ x ∈ v.floats, x.isFinite = true → rereadFloat? x = some x) →
      (ofData? none v.toData = some v ↔ ∀ x ∈ v.floats, x.isFinite = true)) ∧
    ((∃ x ∈ v.floats, x.isFinite = false) → ofData? none v.toData = none) := by
  have lost : (∃ x ∈ v.floats, x.isFinite = false) → ofData? none v.toData = none := by
    rintro ⟨x, inside, nonfinite⟩
    rw [ofData?_toData]
    exact reread?_eq_none inside (rereadFloat?_of_null (floatData_eq_null nonfinite))
  refine ⟨fun rereads => ⟨fun read x inside => ?_, fun finite => ?_⟩, lost⟩
  · by_contra nonfinite
    simp [lost ⟨x, inside, by simpa using nonfinite⟩] at read
  · rw [ofData?_toData]
    exact reread?_eq_self fun x inside => rereads x inside (finite x inside)

/-- Both ends of the word, escaped characters, signed zeros and nested lists come back; what is not
a number does not, two lists deep. -/
theorem data_reads_back_nested :
    (let v := list [unit, bool true, int Int64.minValue, int Int64.maxValue, str "\"\\\n\x01é",
      list [float 0.1, float (-0.0), list []], float 5e-324]
    ofData? none v.toData = some v) ∧
    ofData? none (list [int 1, list [list [float 2.5, float (0 / 0)]]]).toData = none :=
  ⟨((data_reads_back _).1 (by decide +kernel)).2 (by decide +kernel),
    (data_reads_back _).2 (by decide +kernel)⟩

end Posterior.Value
