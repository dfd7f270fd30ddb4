import Mathlib.Data.List.Basic
import Mathlib.Data.List.TakeWhile
import Mathlib.Tactic.Common
import Mathlib.Tactic.IntervalCases
import Posterior.Json.Reader

/-!
# Reading written data

Readers take what they can use from the front of a text. A number is found to be the same whatever
follows it, as long as that is nothing a number goes on with; a quoted text and a tree whose text
ends in a bracket or a brace are found whatever follows them. The fuel that reading a tree takes is
at most the length of its text.

## Main definitions

* `Json.Stable` — readers that find the same in front of what no number goes on with
* `Json.Whole` — digits that a number can start with
* `Json.integral` — an integer as a number
* `Json.ReadAs`, `Json.ReadAsContent`, `Json.ReadAsItems` — what texts are read as, whatever follows
  them, inside an object and inside an array

## Main results

* `Json.stable_readNumeral` — a number is found whatever follows
* `Json.readMagnitude_append` — a number is read from its digits, its fraction and its exponent
* `Json.readNumeral_repr` — an integer is read back
* `Json.readString_quote` — a quoted text is read back
* `Json.readAs_object`, `Json.readAsContent_array` — trees are read from the texts of their parts
-/

namespace Posterior.Json

/-! ### Numbers -/

/-- The characters that a number can go on with. -/
def goesOn (c : Char) : Bool := c.isDigit || ['.', 'e', 'E', '-', '+'].contains c

/-- What a reader finds stays the same when something follows that no number goes on with. -/
def Stable {A : Type} (read : List Char → Option (A × List Char)) : Prop :=
  ∀ {cs rest t : List Char} {a : A}, (∀ c ∈ t.head?, goesOn c = false) →
    read cs = some (a, rest) → read (cs ++ t) = some (a, rest ++ t)

theorem Stable.map {A B : Type} {read : List Char → Option (A × List Char)} (stable : Stable read)
    (f : A → B) : Stable fun cs => (read cs).map fun (a, rest) => (f a, rest) := by
  intro cs rest t b stop h
  obtain ⟨⟨a, r⟩, found, same⟩ := Option.map_eq_some_iff.1 h
  obtain ⟨rfl, rfl⟩ := Prod.mk.inj same
  change (read (cs ++ t)).map _ = _
  rw [stable stop found, Option.map_some]

/-- A text does not come to start with a character that numbers go on with. -/
theorem append_ne_cons {c : Char} {cs t : List Char} (on : goesOn c = true)
    (stop : ∀ c ∈ t.head?, goesOn c = false) (other : ∀ r, cs = c :: r → False) :
    ∀ r, cs ++ t = c :: r → False := by
  rintro r h
  cases cs with
  | nil => simp [stop c (by simp_all)] at on
  | cons d cs => exact other cs (by simp_all)

theorem stable_readDigits : Stable readDigits := by
  intro cs rest t ds stop h
  have run : t.takeWhile Char.isDigit = [] ∧ t.dropWhile Char.isDigit = t := by
    cases t with
    | nil => exact ⟨rfl, rfl⟩
    | cons c t =>
      have := stop c rfl
      simp_all [goesOn]
  have front : (cs ++ t).takeWhile Char.isDigit = cs.takeWhile Char.isDigit := by
    rw [List.takeWhile_append, run.1, List.append_nil]
    split_ifs with whole
    · exact ((List.takeWhile_prefix _).eq_of_length whole).symm
    · rfl
  have back : (cs ++ t).dropWhile Char.isDigit = cs.dropWhile Char.isDigit ++ t := by
    rw [List.dropWhile_append, run.2]
    split <;> simp_all
  unfold readDigits at h ⊢
  rw [front, back]
  cases digits : cs.takeWhile Char.isDigit with
  | nil => simp [digits] at h
  | cons d ds => simp_all

theorem stable_readWhole : Stable readWhole := by
  intro cs rest t ds stop h
  unfold readWhole at h ⊢
  cases found : readDigits cs with
  | none => simp [found] at h
  | some p =>
    rw [stable_readDigits stop found]
    rw [found] at h
    split at h
    · simp at h
    · next short =>
      obtain rfl := Option.some.inj h
      split
      · next leading =>
        cases leading
        exact (short _ _ _ rfl).elim
      · rfl

theorem stable_readFraction : Stable readFraction := by
  intro cs rest t f stop h
  unfold readFraction at h
  split at h
  · exact stable_readDigits.map some stop h
  · next other =>
    -- No point was there, and what follows does not bring one.
    obtain ⟨rfl, rfl⟩ := Prod.mk.inj (Option.some.inj h)
    exact readFraction.eq_2 _ (append_ne_cons rfl stop other)

theorem stable_readSigned : Stable readSigned := by
  intro cs rest t e stop h
  unfold readSigned at h
  split at h
  · exact stable_readDigits.map (fun ds => -(Decimal.digitsValue ds : Int)) stop h
  · exact stable_readDigits.map (fun ds => (Decimal.digitsValue ds : Int)) stop h
  · next minus plus =>
    rw [readSigned.eq_3 _ (append_ne_cons rfl stop minus) (append_ne_cons rfl stop plus)]
    exact stable_readDigits.map (fun ds => (Decimal.digitsValue ds : Int)) stop h

theorem stable_readExponent : Stable readExponent := by
  intro cs rest t e stop h
  unfold readExponent at h
  split at h
  · exact stable_readSigned.map some stop h
  · exact stable_readSigned.map some stop h
  · next lower upper =>
    obtain ⟨rfl, rfl⟩ := Prod.mk.inj (Option.some.inj h)
    exact readExponent.eq_3 _ (append_ne_cons rfl stop lower) (append_ne_cons rfl stop upper)

theorem stable_readMagnitude (negative : Bool) : Stable (readMagnitude negative) := by
  intro cs rest t n stop h
  simp only [readMagnitude, Option.bind_eq_bind, Option.bind_eq_some_iff, Prod.exists] at h
  obtain ⟨ds, afterWhole, whole, f, afterFraction, fraction, e, _, exponent, same⟩ := h
  obtain ⟨rfl, rfl⟩ := by simpa using same
  simp [readMagnitude, stable_readWhole stop whole, stable_readFraction stop fraction,
    stable_readExponent stop exponent]

theorem stable_readNumeral : Stable readNumeral := by
  intro cs rest t n stop h
  unfold readNumeral at h
  split at h
  · exact stable_readMagnitude true stop h
  · next unsigned =>
    rw [readNumeral.eq_2 _ (append_ne_cons rfl stop unsigned)]
    exact stable_readMagnitude false stop h

/-- Digits that a number can start with: no zero leads them, but for zero itself. -/
structure Whole (ds : List Char) : Prop where
  /-- There is a digit. -/
  nonempty : ds ≠ []
  /-- They are digits. -/
  digits : ∀ c ∈ ds, c.isDigit = true
  /-- A leading zero is the only digit. -/
  short : ds.head? = some '0' → ds.length = 1

theorem readDigits_append {ds t : List Char} (nonempty : ds ≠ [])
    (digits : ∀ c ∈ ds, c.isDigit = true) (stop : ∀ c ∈ t.head?, c.isDigit = false) :
    readDigits (ds ++ t) = some (ds, t) := by
  have run : t.takeWhile Char.isDigit = [] ∧ t.dropWhile Char.isDigit = t := by
    cases t with
    | nil => exact ⟨rfl, rfl⟩
    | cons c t => simp [stop c rfl]
  have front : (ds ++ t).takeWhile Char.isDigit = ds := by
    rw [List.takeWhile_append_of_pos digits, run.1, List.append_nil]
  have back : (ds ++ t).dropWhile Char.isDigit = t := by
    rw [List.dropWhile_append_of_pos digits, run.2]
  rw [readDigits, front, back]
  cases ds with
  | nil => exact absurd rfl nonempty
  | cons d ds => rfl

theorem readWhole_append {ds t : List Char} (whole : Whole ds)
    (stop : ∀ c ∈ t.head?, c.isDigit = false) : readWhole (ds ++ t) = some (ds, t) := by
  rw [readWhole, readDigits_append whole.nonempty whole.digits stop]
  split
  · next leading =>
    obtain ⟨rfl, -⟩ := Prod.mk.inj (Option.some.inj leading)
    simpa using whole.short rfl
  · rfl

/-- A number is read from its digits, a fraction if there is one, and an exponent if there is one. -/
theorem readMagnitude_append (negative : Bool) {ds t afterFraction rest : List Char}
    {fraction : Option (List Char)} {exponent : Option Int} (whole : Whole ds)
    (stop : ∀ c ∈ t.head?, c.isDigit = false)
    (readFraction : readFraction t = some (fraction, afterFraction))
    (readExponent : readExponent afterFraction = some (exponent, rest)) :
    readMagnitude negative (ds ++ t) = some (⟨negative, ds, fraction, exponent⟩, rest) := by
  simp [readMagnitude, readWhole_append whole stop, readFraction, readExponent]

/-! ### Integers -/

/-- An integer as a number. -/
def integral (i : Int) : Numeral := ⟨i < 0, Nat.toDigits 10 i.natAbs, none, none⟩

theorem isDigit_of_mem_toDigits {n : Nat} {c : Char} (h : c ∈ Nat.toDigits 10 n) :
    c.isDigit = true :=
  Nat.isDigit_of_mem_toDigits (by decide) (by decide) h

/-- No zero leads the digits of a positive number. -/
theorem head?_toDigits {n : Nat} (pos : 0 < n) : (Nat.toDigits 10 n).head? ≠ some '0' := by
  induction n using Nat.strongRecOn with
  | ind n ih =>
    rcases Nat.lt_or_ge n 10 with small | large
    · rw [Nat.toDigits_of_lt_base small]
      interval_cases n <;> decide
    · rw [Nat.toDigits_of_base_le (by decide) large,
        List.head?_append_of_ne_nil _ Nat.toDigits_ne_nil]
      exact ih _ (Nat.div_lt_self pos (by decide)) (Nat.div_pos large (by decide))

theorem whole_toDigits (n : Nat) : Whole (Nat.toDigits 10 n) where
  nonempty := Nat.toDigits_ne_nil
  digits _ := isDigit_of_mem_toDigits
  short leading := by
    rcases Nat.eq_zero_or_pos n with rfl | pos
    · rfl
    · exact absurd leading (head?_toDigits pos)

theorem readMagnitude_toDigits (negative : Bool) (n : Nat) :
    readMagnitude negative (Nat.toDigits 10 n) =
      some (⟨negative, Nat.toDigits 10 n, none, none⟩, []) := by
  simpa using readMagnitude_append negative (t := []) (whole_toDigits n) (by simp) rfl rfl

/-- An integer is read back. -/
theorem readNumeral_repr (i : Int) : readNumeral i.repr.toList = some (integral i, []) := by
  cases i with
  | ofNat n =>
    have unsigned (r : List Char) (h : Nat.toDigits 10 n = '-' :: r) : False :=
      have minus : '-' ∈ Nat.toDigits 10 n := by simp [h]
      absurd (isDigit_of_mem_toDigits minus) (by decide)
    rw [Int.repr, Nat.repr_eq_ofList_toDigits, String.toList_ofList, readNumeral.eq_2 _ unsigned,
      readMagnitude_toDigits]
    simp [integral]
  | negSucc n =>
    simp [Int.repr, integral, readNumeral, readMagnitude_toDigits, Int.negSucc_lt_zero]

/-! ### Strings -/

/-- A unit that is no half of a pair is a character of its own. -/
theorem joinPieces_unit {n : Nat} (low : n < 0xd800) (ps : List Piece) :
    joinPieces (.unit n :: ps) = (joinPieces ps).map (Char.ofNat n :: ·) := by
  have first : ¬ (0xd800 ≤ n ∧ n < 0xdc00) := by omega
  have second : ¬ (0xdc00 ≤ n ∧ n < 0xe000) := by omega
  have half : ¬ (0xd800 ≤ n ∧ n < 0xe000) := by omega
  cases ps with
  | nil => simp [joinPieces, half]
  | cons p ps => cases p <;> simp [joinPieces, first, second, half]

/-- The number of a control character is read back from its digits. -/
theorem unitValue?_control : ∀ n < 0x20,
    unitValue? '0' '0' (Nat.digitChar (n / 16)) (Nat.digitChar (n % 16)) = some n := by
  decide

/-- The written form of a character is read as one piece, which stands for that character. -/
theorem exists_piece (c : Char) : ∃ p : Piece,
    (∀ cs, readPieces (escape c ++ cs) = (readPieces cs).map fun (ps, rest) => (p :: ps, rest)) ∧
    ∀ ps, joinPieces (p :: ps) = (joinPieces ps).map (c :: ·) := by
  unfold escape
  split_ifs with quote backslash backspace feed lf cr tab control
  iterate 7
    · subst c
      exact ⟨.char _, fun cs => by simp [readPieces, escaped?, Option.map_eq_bind], fun ps => rfl⟩
  · refine ⟨.unit c.toNat, fun cs => ?_, fun ps => ?_⟩
    · simp [readPieces, unitValue?_control _ control, Option.map_eq_bind]
    · rw [joinPieces_unit (by omega), Char.ofNat_toNat]
  · exact ⟨.char c, fun cs => by simp [readPieces, backslash, control, Option.map_eq_bind],
      fun ps => rfl⟩

/-- A quoted text is read back. -/
theorem readString_quote (s : String) (rest : List Char) :
    readString (s.toList.flatMap escape ++ '"' :: rest) = some (some s, rest) := by
  have pieces (cs : List Char) : ∃ ps,
      readPieces (cs.flatMap escape ++ '"' :: rest) = some (ps, rest) ∧
        joinPieces ps = some cs := by
    induction cs with
    | nil => exact ⟨[], rfl, rfl⟩
    | cons c cs ih =>
      obtain ⟨ps, read, joined⟩ := ih
      obtain ⟨p, first, stands⟩ := exists_piece c
      refine ⟨p :: ps, ?_, ?_⟩
      · rw [List.flatMap_cons, List.append_assoc, first, read, Option.map_some]
      · rw [stands, joined, Option.map_some]
  obtain ⟨ps, read, joined⟩ := pieces s.toList
  simp [readString, read, joined]

/-! ### Trees -/

/-- A text is read as a tree, whatever follows. -/
def ReadAs (cs : List Char) (j : Json) : Prop :=
  ∀ fuel rest, cs.length ≤ fuel → readValue (fuel + 1) (cs ++ rest) = some (j, rest)

/-- A text is read as a tree where it is the content of an object's last field. -/
def ReadAsContent (cs : List Char) (j : Json) : Prop :=
  ∀ fuel rest, cs.length ≤ fuel →
    readValue (fuel + 1) (cs ++ '\x7d' :: rest) = some (j, '\x7d' :: rest)

/-- A text is read as a sequence of trees where it stands before an array's closing bracket. -/
def ReadAsItems (cs : List Char) (js : List Json) : Prop :=
  ∀ fuel rest, cs.length < fuel → readItems (fuel + 1) (cs ++ ']' :: rest) = some (js, rest)

theorem skipBlanks_cons {c : Char} (visible : isBlank c = false) (cs : List Char) :
    skipBlanks (c :: cs) = c :: cs := by
  rw [skipBlanks, List.dropWhile_cons_of_neg (by simp [visible])]

theorem readAs_string (s : String) : ReadAs (quote s).toList (.string (some s)) := by
  intro fuel rest _
  have read := readString_quote s rest
  simp [quote, readValue, skipBlanks, isBlank, read]

theorem readAs_bool (b : Bool) : ReadAs (if b then "true" else "false").toList (.bool b) := by
  intro fuel rest _
  cases b <;> simp [readValue, skipBlanks, isBlank]

theorem readAs_null : ReadAs "null".toList .null := by
  intro fuel rest _
  simp [readValue, skipBlanks, isBlank]

theorem ReadAs.content {cs : List Char} {j : Json} (read : ReadAs cs j) : ReadAsContent cs j :=
  fun fuel rest enough => read fuel ('\x7d' :: rest) enough

/-- A number starts with a digit or a minus sign. -/
theorem exists_head_numeral {cs rest : List Char} {n : Numeral}
    (h : readNumeral cs = some (n, rest)) :
    ∃ c ds, cs = c :: ds ∧ (c.isDigit = true ∨ c = '-') := by
  unfold readNumeral at h
  split at h
  · exact ⟨_, _, rfl, .inr rfl⟩
  · cases cs with
    | nil => simp [readMagnitude, readWhole, readDigits] at h
    | cons c ds =>
      cases digit : c.isDigit with
      | true => exact ⟨c, ds, rfl, .inl digit⟩
      | false => simp [readMagnitude, readWhole, readDigits, digit] at h

/-- What starts like a number is read as a number. -/
theorem readValue_numeral {c : Char} (start : c.isDigit = true ∨ c = '-') (fuel : Nat)
    (cs : List Char) : readValue (fuel + 1) (c :: cs) =
      (readNumeral (c :: cs)).map fun (n, rest) => (.number n, rest) := by
  have other {d : Char} (h : d.isDigit = false ∧ d ≠ '-') : c ≠ d := by
    rintro rfl
    simp [h] at start
  have visible : isBlank c = false := by
    have blanks : ∀ d, isBlank d = true → d.isDigit = false ∧ d ≠ '-' := by
      intro d blank
      simp only [isBlank, Bool.or_eq_true, beq_iff_eq] at blank
      obtain ((rfl | rfl) | rfl) | rfl := blank <;> decide
    exact Bool.eq_false_iff.2 fun blank => other (blanks c blank) rfl
  rw [readValue, skipBlanks_cons visible]
  -- In every other branch the text starts with a character that no number starts with.
  split
  all_goals first | rfl | (next h => exact absurd (List.cons.inj h).1 (other (by decide)))

/-- A number that is read from a text is the content of a field with that text. -/
theorem readAsContent_number {cs : List Char} {n : Numeral} (h : readNumeral cs = some (n, [])) :
    ReadAsContent cs (.number n) := by
  intro fuel rest _
  have read := stable_readNumeral (t := '\x7d' :: rest) (by simp [goesOn]) h
  obtain ⟨c, ds, rfl, start⟩ := exists_head_numeral h
  rw [List.cons_append] at read ⊢
  rw [readValue_numeral start, read]
  rfl

theorem readAs_array_nil : ReadAs "[]".toList (.array []) := by
  intro fuel rest _
  simp [readValue, skipBlanks, isBlank]

/-- An array is read from the text of its items, the first of which does not look like its end. -/
theorem readAs_array {c : Char} {cs : List Char} {js : List Json} (visible : isBlank c = false)
    (other : c ≠ ']') (read : ReadAsItems (c :: cs) js) :
    ReadAs ('[' :: c :: cs ++ [']']) (.array js) := by
  intro fuel rest enough
  simp only [List.length_append, List.length_cons, List.length_nil] at enough
  obtain ⟨fuel, rfl⟩ := Nat.exists_eq_add_of_le' (show 1 ≤ fuel by omega)
  have items := read fuel rest (by simp only [List.length_cons]; omega)
  have text : '[' :: c :: cs ++ [']'] ++ rest = '[' :: c :: (cs ++ ']' :: rest) := by simp
  rw [text, readValue, skipBlanks_cons rfl]
  simp only [skipBlanks_cons visible]
  split
  · next close => exact absurd (List.cons.inj close).1 other
  · rw [← List.cons_append, items, Option.map_some]

theorem readAsItems_singleton {cs : List Char} {j : Json} (read : ReadAs cs j) :
    ReadAsItems cs [j] := by
  intro fuel rest enough
  obtain ⟨fuel, rfl⟩ := Nat.exists_eq_add_of_le' (show 1 ≤ fuel by omega)
  have item := read fuel (']' :: rest) (by omega)
  simp [readItems, item, skipBlanks, isBlank]

theorem readAsItems_cons {cs ds : List Char} {j : Json} {js : List Json} (read : ReadAs cs j)
    (reads : ReadAsItems ds js) : ReadAsItems (cs ++ ',' :: ds) (j :: js) := by
  intro fuel rest enough
  simp only [List.length_append, List.length_cons] at enough
  obtain ⟨fuel, rfl⟩ := Nat.exists_eq_add_of_le' (show 1 ≤ fuel by omega)
  have item := read fuel (',' :: (ds ++ ']' :: rest)) (by omega)
  have items := reads fuel rest (by omega)
  rw [readItems]
  simp [item, items, skipBlanks, isBlank]

/-- The only field of an object is read from its name and its content. -/
theorem readFields_only (name : String) {cs rest : List Char} {fuel : Nat} {j : Json}
    (read : readValue fuel (cs ++ '\x7d' :: rest) = some (j, '\x7d' :: rest)) :
    readFields (fuel + 1) ((quote name).toList ++ ':' :: cs ++ '\x7d' :: rest) =
      some ([(some name, j)], rest) := by
  have named := readString_quote name (':' :: (cs ++ '\x7d' :: rest))
  simp [quote, readFields, skipBlanks, isBlank, named, read]

/-- An object with one field is read from the content of that field. -/
theorem readAs_object (name : String) {cs : List Char} {j : Json} (read : ReadAsContent cs j) :
    ReadAs ('\x7b' :: ((quote name).toList ++ ':' :: cs ++ ['\x7d']))
      (.object [(some name, j)]) := by
  intro fuel rest enough
  simp only [List.length_append, List.length_cons, List.length_nil] at enough
  obtain ⟨fuel, rfl⟩ := Nat.exists_eq_add_of_le' (show 2 ≤ fuel by omega)
  have fields := readFields_only name (read fuel rest (by omega))
  obtain ⟨ds, quoted⟩ : ∃ ds, (quote name).toList = '"' :: ds := ⟨_, by rw [quote]; simp; rfl⟩
  rw [quoted] at fields ⊢
  simp_all [readValue, skipBlanks, isBlank]

end Posterior.Json
