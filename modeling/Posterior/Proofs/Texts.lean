import Mathlib.Data.List.Basic
import Mathlib.Tactic.Common
import Posterior.Marginal

/-!
# Reading texts and listings

Nothing in the text of a value breaks a line, so a listing has one line for each of its entries. The
text of a value without floats also says where it ends: its first character tells the kind, an
integer goes on as long as there are digits, quotes and backslashes inside a text are escaped, and
in a list what follows an item is a comma or the closing bracket. So no item can run into the next
one, and two such values have one text only if they are the same.

## Main definitions

* `Text.Written` — the ways in which a character is written inside quotes
* `Value.floats` — the floats that a value holds, at any depth
* `Value.leadingKind?` — the kind that the first character of a text tells
* `Marginal.row` — a line of a listing without its newline

## Main results

* `Text.quoted_append_inj` — a quoted text says what it quotes, and where it ends
* `Value.text_append_inj` — so does the text of a value without floats
* `Marginal.listing_faithful` — the lines of a listing are its entries in order
-/

namespace Posterior

/-! ### Quoted texts -/

namespace Text

/-- A run of characters of one class ends where the first other character stands. -/
theorem run_append_inj {p : Char → Bool} {xs ys s t : List Char}
    (left : ∀ c ∈ xs, p c = true) (right : ∀ c ∈ ys, p c = true)
    (leftEnd : ∀ c ∈ s.head?, p c = false) (rightEnd : ∀ c ∈ t.head?, p c = false)
    (h : xs ++ s = ys ++ t) : xs = ys ∧ s = t := by
  have stops : ∀ {r : List Char}, (∀ c ∈ r.head?, p c = false) → r.takeWhile p = [] := by
    intro r last
    cases r with
    | nil => rfl
    | cons c r => rw [List.takeWhile_cons, last c rfl]; rfl
  have runs : xs = ys := by
    simpa [List.takeWhile_append_of_pos left, List.takeWhile_append_of_pos right, stops leftEnd,
      stops rightEnd] using congrArg (List.takeWhile p) h
  subst runs
  exact ⟨rfl, List.append_cancel_left h⟩

theorem exists_digitChar {b n : Nat} {c : Char} (one : 1 < b) (h : c ∈ Nat.toDigits b n) :
    ∃ d < b, c = d.digitChar := by
  induction n using Nat.strongRecOn with
  | ind n ih =>
    rcases Nat.lt_or_ge n b with small | large
    · rw [Nat.toDigits_of_lt_base small, List.mem_singleton] at h
      exact ⟨n, small, h⟩
    · rw [Nat.toDigits_of_base_le one large, List.mem_append, List.mem_singleton] at h
      rcases h with h | rfl
      · exact ih _ (Nat.div_lt_self (by omega) one) h
      · exact ⟨n % b, Nat.mod_lt _ (by omega), rfl⟩

theorem digitChar_inj : ∀ d < 16, ∀ e < 16, d.digitChar = e.digitChar → d = e := by
  decide

/-- A number is known by its digits. -/
theorem toDigits_inj {b m n : Nat} (one : 1 < b) (few : b ≤ 16)
    (h : Nat.toDigits b m = Nat.toDigits b n) : m = n := by
  have inj (d : Nat) (hd : d < b) (e : Nat) (he : e < b) := digitChar_inj d (by omega) e (by omega)
  induction m using Nat.strongRecOn generalizing n with
  | ind m ih =>
    rcases Nat.lt_or_ge m b with short | long <;> rcases Nat.lt_or_ge n b with short' | long'
    · rw [Nat.toDigits_of_lt_base short, Nat.toDigits_of_lt_base short', List.cons.injEq] at h
      exact inj m short n short' h.1
    · rw [Nat.toDigits_of_lt_base short, Nat.toDigits_of_base_le one long'] at h
      simpa using congrArg List.length h
    · rw [Nat.toDigits_of_base_le one long, Nat.toDigits_of_lt_base short'] at h
      simpa using congrArg List.length h
    · -- both have a last digit, and what stands before it is shorter
      rw [Nat.toDigits_of_base_le one long, Nat.toDigits_of_base_le one long'] at h
      obtain ⟨high, low⟩ := List.append_inj' h rfl
      have high := ih _ (Nat.div_lt_self (by omega) one) high
      have low := inj _ (Nat.mod_lt m (by omega)) _ (Nat.mod_lt n (by omega)) (List.cons.inj low).1
      rw [← Nat.div_add_mod m b, ← Nat.div_add_mod n b, high, low]

/-- The characters that are written as a backslash and a letter, with that letter. -/
def letters : List (Char × Char) :=
  [('\x00', '0'), ('\t', 't'), ('\r', 'r'), ('\n', 'n'), ('"', '"'), ('\\', '\\')]

/-- The ways in which a character is written inside quotes. -/
inductive Written (c : Char) : List Char → Prop where
  /-- A backslash and a letter. -/
  | letter {l : Char} (listed : (c, l) ∈ letters) : Written c ['\\', l]
  /-- The character itself. -/
  | itself (apart : c ≠ '\\' ∧ c ≠ '"' ∧ c ≠ '\n') : Written c [c]
  /-- The code point in braces. -/
  | code : Written c ('\\' :: 'u' :: '\x7b' :: hex c.toNat ++ ['\x7d'])

theorem letters_inj : ∀ p ∈ letters, ∀ q ∈ letters, p.2 = q.2 → p = q := by decide

theorem letters_ne : ∀ p ∈ letters, p.2 ≠ 'u' ∧ p.2 ≠ '\n' := by decide

theorem written_escape (c : Char) : Written c (escape c) := by
  unfold escape
  split_ifs with nul tab cr lf quote backslash shown
  iterate 6 exact .letter (by simp [letters, *])
  · exact .itself ⟨backslash, quote, lf⟩
  · exact .code

theorem hex_ne {n : Nat} {c : Char} (h : c ∈ hex n) : c ≠ '\x7d' ∧ c ≠ '\n' := by
  obtain ⟨d, -, rfl⟩ := exists_digitChar (by decide) h
  exact ⟨Nat.digitChar_ne _ (by decide), Nat.digitChar_ne _ (by decide)⟩

/-- The written form of a character says where it ends. -/
theorem Written.append_inj {c d : Char} {xs ys s t : List Char} (left : Written c xs)
    (right : Written d ys) (h : xs ++ s = ys ++ t) : c = d ∧ s = t := by
  cases left with
  | letter listed =>
    cases right with
    | letter listed' =>
      obtain ⟨rfl, rest⟩ := by simpa using h
      exact ⟨congrArg Prod.fst (letters_inj _ listed _ listed' rfl), rest⟩
    | itself apart => simp [apart.1.symm] at h
    | code => simp [(letters_ne _ listed).1] at h
  | itself apart =>
    cases right with
    | letter listed' => simp [apart.1] at h
    | itself apart' => simpa using h
    | code => simp [apart.1] at h
  | code =>
    cases right with
    | letter listed' => simp [(letters_ne _ listed').1.symm] at h
    | itself apart' => simp [apart'.1.symm] at h
    | code =>
      -- The closing brace is no digit, so it tells where the digits end.
      have h : hex c.toNat ++ '\x7d' :: s = hex d.toNat ++ '\x7d' :: t := by simpa using h
      have inner : ∀ n, ∀ a ∈ hex n, (a != '\x7d') = true := fun n a h => by
        simpa using (hex_ne h).1
      obtain ⟨same, rest⟩ := run_append_inj (inner _) (inner _) (by simp) (by simp) h
      exact ⟨Char.toNat_inj.1 (toDigits_inj (by decide) (by decide) same), (List.cons.inj rest).2⟩

theorem Written.newline_not_mem {c : Char} {xs : List Char} (h : Written c xs) : '\n' ∉ xs := by
  cases h with
  | letter listed => simp [(letters_ne _ listed).2.symm]
  | itself apart => simp [apart.2.2.symm]
  | code => simpa using fun h => (hex_ne h).2 rfl

/-- No written form starts with the quote that would end the text. -/
theorem Written.append_ne {c : Char} {xs s t : List Char} (h : Written c xs) :
    xs ++ s ≠ '"' :: t := by
  cases h with
  | letter listed => simp
  | itself apart => simp [apart.2.1]
  | code => simp

theorem flatMap_escape_append_inj {cs ds s t : List Char}
    (h : cs.flatMap escape ++ '"' :: s = ds.flatMap escape ++ '"' :: t) : cs = ds ∧ s = t := by
  induction cs generalizing ds with
  | nil =>
    cases ds with
    | nil => simpa using h
    | cons d ds =>
      rw [List.flatMap_cons, List.append_assoc] at h
      exact absurd h.symm (written_escape d).append_ne
  | cons c cs ih =>
    rw [List.flatMap_cons, List.append_assoc] at h
    cases ds with
    | nil => exact absurd h (written_escape c).append_ne
    | cons d ds =>
      rw [List.flatMap_cons, List.append_assoc] at h
      obtain ⟨rfl, others⟩ := (written_escape c).append_inj (written_escape d) h
      obtain ⟨rfl, rest⟩ := ih others
      exact ⟨rfl, rest⟩

/-- A quoted text says what it quotes, and where it ends. -/
theorem quoted_append_inj {a b : String} {s t : List Char}
    (h : (quoted a).toList ++ s = (quoted b).toList ++ t) : a = b ∧ s = t := by
  obtain ⟨same, rest⟩ := flatMap_escape_append_inj (by simpa [quoted] using h)
  exact ⟨String.toList_inj.1 same, rest⟩

theorem newline_not_mem_quoted (s : String) : '\n' ∉ (quoted s).toList := by
  simpa [quoted] using fun c _ => (written_escape c).newline_not_mem

end Text

/-! ### Numbers -/

namespace Decimal

theorem newline_not_mem_toDigits (n : Nat) : '\n' ∉ Nat.toDigits 10 n := fun h =>
  absurd (Nat.isDigit_of_mem_toDigits (by decide) (by decide) h) (by decide)

theorem newline_not_mem_zeros (n : Nat) : '\n' ∉ (zeros n).toList := by simp [zeros]

theorem Style.newline_not_mem_layout (s : Style) (d : Digits) : '\n' ∉ (s.layout d).toList := by
  have digits := newline_not_mem_toDigits d.coefficient
  have front (n : Nat) : '\n' ∉ (Nat.toDigits 10 d.coefficient).take n :=
    mt List.mem_of_mem_take digits
  have back (n : Nat) : '\n' ∉ (Nat.toDigits 10 d.coefficient).drop n :=
    mt List.mem_of_mem_drop digits
  simp only [layout, signed]
  split_ifs <;>
    simp [newline_not_mem_toDigits, newline_not_mem_zeros, front, back, -List.drop_one]

theorem newline_not_mem_write (s : Style) (x : Float) : '\n' ∉ (write s x).toList := by
  unfold write
  cases read x with
  | nan => simp
  | infinite negative => cases negative <;> simp
  | finite b =>
    simp only [Style.number]
    split_ifs <;> simp [Style.newline_not_mem_layout]

theorem newline_not_mem_fixed (places : Nat) (x : Float) : '\n' ∉ (fixed places x).toList := by
  unfold fixed
  cases read x with
  | nan => simp
  | infinite negative => cases negative <;> simp
  | finite b =>
    simp only
    split_ifs <;> simp [newline_not_mem_toDigits, newline_not_mem_zeros]

end Decimal

/-! ### Values -/

namespace Value

mutual

/-- The floats that a value holds, at any depth, from left to right. -/
def floats : Value → List Float
  | float x => [x]
  | list items => itemsFloats items
  | _ => []

/-- The floats that the items of a list hold. -/
def itemsFloats : List Value → List Float
  | [] => []
  | v :: vs => floats v ++ itemsFloats vs

end

/-- The items of a list after the first, each with what separates it from the one before. -/
def laterTexts (vs : List Value) : List Char := vs.flatMap fun v => ',' :: ' ' :: v.text.toList

theorem itemsText_cons (v : Value) (vs : List Value) :
    (itemsText (v :: vs)).toList = v.text.toList ++ laterTexts vs := by
  induction vs generalizing v with
  | nil => simp [itemsText, laterTexts]
  | cons w vs ih => simp [itemsText, ih, laterTexts]

mutual

theorem newline_not_mem_text : ∀ v : Value, '\n' ∉ v.text.toList
  | unit => by simp [text]
  | bool b => by cases b <;> simp [text]
  | int i => by
    rw [text, Int.repr_eq_if]
    split_ifs <;> simp [Decimal.newline_not_mem_toDigits]
  | float x => Decimal.newline_not_mem_write _ x
  | str s => Text.newline_not_mem_quoted s
  | list [] => by simp [text, itemsText]
  | list (v :: vs) => by
    have first := newline_not_mem_text v
    have others := newline_not_mem_laterTexts vs
    simp [text, itemsText_cons, first, others]

theorem newline_not_mem_laterTexts : ∀ vs : List Value, '\n' ∉ laterTexts vs
  | [] => by simp [laterTexts]
  | v :: vs => by
    have first := newline_not_mem_text v
    have others := newline_not_mem_laterTexts vs
    simp_all [laterTexts]

end

/-- The characters that integers are written with. -/
def isNumeral (c : Char) : Bool := c.isDigit || c == '-'

/-- The kind of value whose text starts like this, if it holds no float. -/
def leadingKind? : List Char → Option String
  | [] => none
  | c :: _ =>
    if isNumeral c then some "int"
    else if c = '(' then some "unit"
    else if c = 't' ∨ c = 'f' then some "bool"
    else if c = '"' then some "string"
    else if c = '[' then some "list"
    else none

theorem isNumeral_of_mem_repr {i : Int} {c : Char} (h : c ∈ i.repr.toList) :
    isNumeral c = true := by
  have digit {n : Nat} (h : c ∈ Nat.toDigits 10 n) : isNumeral c = true := by
    simp [isNumeral, Nat.isDigit_of_mem_toDigits (by decide) (by decide) h]
  rw [Int.repr_eq_if] at h
  split_ifs at h with nonneg
  · exact digit (by simpa using h)
  · obtain rfl | h := by simpa using h
    · rfl
    · exact digit h

theorem repr_ne_nil (i : Int) : i.repr.toList ≠ [] := by
  rw [Int.repr_eq_if]
  split_ifs <;> simp

/-- An integer is known by its sign and its digits. -/
theorem repr_inj {i j : Int} (h : i.repr.toList = j.repr.toList) : i = j := by
  have minus (n : Nat) : '-' ∉ Nat.toDigits 10 n := fun h =>
    absurd (Nat.isDigit_of_mem_toDigits (by decide) (by decide) h) (by decide)
  have known {m n : Nat} (h : Nat.toDigits 10 m = Nat.toDigits 10 n) : m = n :=
    Text.toDigits_inj (by decide) (by decide) h
  rw [Int.repr_eq_if, Int.repr_eq_if] at h
  split_ifs at h with nonneg nonneg'
  · have := known (by simpa using h)
    omega
  · have h : Nat.toDigits 10 i.toNat = '-' :: Nat.toDigits 10 (-j).toNat := by simpa using h
    exact absurd (h ▸ List.mem_cons_self) (minus i.toNat)
  · have h : '-' :: Nat.toDigits 10 (-i).toNat = Nat.toDigits 10 j.toNat := by simpa using h
    exact absurd (h ▸ List.mem_cons_self) (minus j.toNat)
  · have := known (by simpa using h)
    omega

/-- The text of a value starts with a character that tells its kind. -/
theorem leadingKind?_text {v : Value} (floatless : v.floats = []) (s : List Char) :
    leadingKind? (v.text.toList ++ s) = some v.kind := by
  cases v with
  | unit => simp [text, leadingKind?, isNumeral, kind]
  | bool b => cases b <;> simp [text, leadingKind?, isNumeral, kind]
  | int i =>
    have numeral (c : Char) (h : c ∈ i.toInt.repr.toList) := isNumeral_of_mem_repr h
    rw [text]
    cases written : i.toInt.repr.toList with
    | nil => exact absurd written (repr_ne_nil _)
    | cons c cs => simp [leadingKind?, numeral c (by simp [written]), kind]
  | float x => simp [floats] at floatless
  | str s => simp [text, Text.quoted, leadingKind?, isNumeral, kind]
  | list items => simp [text, leadingKind?, isNumeral, kind]

/-- The kinds of two values can be told from texts that start with theirs. -/
theorem kind_eq_of_text_append {u v : Value} {s t : List Char} (left : u.floats = [])
    (right : v.floats = []) (h : u.text.toList ++ s = v.text.toList ++ t) : u.kind = v.kind := by
  have alike := congrArg leadingKind? h
  rwa [leadingKind?_text left, leadingKind?_text right, Option.some.injEq] at alike

/-- A list that has items does not start like one that ends at once. -/
theorem itemsText_append_ne {v : Value} {vs : List Value} {s t : List Char}
    (floatless : itemsFloats (v :: vs) = []) :
    (itemsText (v :: vs)).toList ++ s ≠ ']' :: t := by
  intro h
  obtain ⟨first, -⟩ := List.append_eq_nil_iff.1 floatless
  have alike := congrArg leadingKind? h
  rw [itemsText_cons, List.append_assoc, leadingKind?_text first] at alike
  simp [leadingKind?, isNumeral] at alike

/-- No number goes on in what follows an item. -/
theorem laterTexts_end {vs : List Value} {s : List Char} :
    ∀ c ∈ (laterTexts vs ++ ']' :: s).head?, isNumeral c = false := by
  cases vs <;> simp [laterTexts, isNumeral]

mutual

/-- A text says where it ends, as soon as no number goes on after it. -/
theorem text_append_inj : ∀ {u v : Value} {s t : List Char}, u.floats = [] → v.floats = [] →
    (∀ c ∈ s.head?, isNumeral c = false) → (∀ c ∈ t.head?, isNumeral c = false) →
    u.text.toList ++ s = v.text.toList ++ t → u = v ∧ s = t
  | unit, v, s, t => fun left right _ _ h => by
    have alike := kind_eq_of_text_append left right h
    cases v with
    | unit => exact ⟨rfl, List.append_cancel_left h⟩
    | _ => simp [kind] at alike
  | bool a, v, s, t => fun left right _ _ h => by
    have alike := kind_eq_of_text_append left right h
    cases v with
    | bool b => cases a <;> cases b <;> simp_all [text]
    | _ => simp [kind] at alike
  | int i, v, s, t => fun left right leftEnd rightEnd h => by
    have alike := kind_eq_of_text_append left right h
    cases v with
    | int j =>
      -- Only here does it matter what follows: another digit would belong to the integer.
      obtain ⟨same, rest⟩ := Text.run_append_inj (fun _ => isNumeral_of_mem_repr)
        (fun _ => isNumeral_of_mem_repr) leftEnd rightEnd h
      have same := repr_inj same
      exact ⟨congrArg int (Int64.toInt_inj.1 same), rest⟩
    | _ => simp [kind] at alike
  | float x, _, _, _ => fun left => by simp [floats] at left
  | str a, v, s, t => fun left right _ _ h => by
    have alike := kind_eq_of_text_append left right h
    cases v with
    | str b =>
      obtain ⟨rfl, rest⟩ := Text.quoted_append_inj h
      exact ⟨rfl, rest⟩
    | _ => simp [kind] at alike
  | list as, v, s, t => fun left right _ _ h => by
    have alike := kind_eq_of_text_append left right h
    cases v with
    | list bs =>
      obtain ⟨rfl, rest⟩ := itemsText_append_inj left right (by simpa [text] using h)
      exact ⟨rfl, rest⟩
    | _ => simp [kind] at alike

theorem itemsText_append_inj : ∀ {us vs : List Value} {s t : List Char}, itemsFloats us = [] →
    itemsFloats vs = [] →
    (itemsText us).toList ++ ']' :: s = (itemsText vs).toList ++ ']' :: t → us = vs ∧ s = t
  | [], [], s, t, _, _, h => ⟨rfl, by simpa [itemsText] using h⟩
  | [], v :: vs, s, t, _, right, h => absurd h.symm (itemsText_append_ne right)
  | u :: us, [], s, t, left, _, h => absurd h (itemsText_append_ne left)
  | u :: us, v :: vs, s, t, left, right, h => by
    obtain ⟨left, leftLater⟩ := List.append_eq_nil_iff.1 left
    obtain ⟨right, rightLater⟩ := List.append_eq_nil_iff.1 right
    rw [itemsText_cons, itemsText_cons, List.append_assoc, List.append_assoc] at h
    obtain ⟨rfl, later⟩ := text_append_inj left right laterTexts_end laterTexts_end h
    obtain ⟨rfl, rest⟩ := laterTexts_append_inj leftLater rightLater later
    exact ⟨rfl, rest⟩

theorem laterTexts_append_inj : ∀ {us vs : List Value} {s t : List Char}, itemsFloats us = [] →
    itemsFloats vs = [] → laterTexts us ++ ']' :: s = laterTexts vs ++ ']' :: t →
    us = vs ∧ s = t
  | [], [], s, t, _, _, h => by simpa [laterTexts] using h
  | [], _ :: _, s, t, _, _, h => by simp [laterTexts] at h
  | _ :: _, [], s, t, _, _, h => by simp [laterTexts] at h
  | u :: us, v :: vs, s, t, left, right, h => by
    obtain ⟨left, leftLater⟩ := List.append_eq_nil_iff.1 left
    obtain ⟨right, rightLater⟩ := List.append_eq_nil_iff.1 right
    have h : u.text.toList ++ (laterTexts us ++ ']' :: s) =
        v.text.toList ++ (laterTexts vs ++ ']' :: t) := by
      simpa [laterTexts] using h
    obtain ⟨rfl, later⟩ := text_append_inj left right laterTexts_end laterTexts_end h
    obtain ⟨rfl, rest⟩ := laterTexts_append_inj leftLater rightLater later
    exact ⟨rfl, rest⟩

end

/-- Values without floats that have the same text are the same. -/
theorem text_inj {u v : Value} (left : u.floats = []) (right : v.floats = [])
    (h : u.text = v.text) : u = v :=
  (text_append_inj (s := []) (t := []) left right (by simp) (by simp) (by rw [h])).1

-- a float that is an integer is written like that integer
example : (float 1).text = (int 1).text := by decide +kernel

end Value

namespace Marginal

/-- A line of a listing without the newline that ends it. -/
def row (e : Value × Float) : List Char := (e.1.text ++ ": " ++ Decimal.fixed 6 e.2).toList

theorem newline_not_mem_row (e : Value × Float) : '\n' ∉ row e := by
  simp [row, Value.newline_not_mem_text, Decimal.newline_not_mem_fixed]

/-- A listing is its rows, each ended by a newline. -/
theorem toList_text (m : Marginal Float) :
    m.text.toList = m.masses.flatMap fun e => row e ++ ['\n'] := by
  rw [Marginal.text]
  induction m.masses with
  | nil => rfl
  | cons e es ih => simp_all [row, line, Scalar.fixedText]

theorem splitOn_rows (es : List (Value × Float)) :
    (es.flatMap fun e => row e ++ ['\n']).splitOn '\n' = es.map row ++ [[]] := by
  induction es with
  | nil => exact List.splitOn_nil _
  | cons e es ih =>
    rw [List.flatMap_cons, List.append_assoc, List.singleton_append,
      List.splitOn_append_cons_self_of_not_mem (newline_not_mem_row e), ih, List.map_cons,
      List.cons_append]

theorem count_rows (es : List (Value × Float)) :
    (es.flatMap fun e => row e ++ ['\n']).count '\n' = es.length := by
  induction es with
  | nil => rfl
  | cons e es ih =>
    simp [ih, List.count_eq_zero.2 (newline_not_mem_row e)]

end Marginal

/-- A listing is faithful. It has as many newlines as entries, and cut at its newlines it gives the
entries in order, nothing being left behind the last newline: whatever values are listed, no row
holds a newline of its own. Two values that hold no float have the same text only if they are the
same value. -/
theorem Marginal.listing_faithful (m : Marginal Float) :
    (m.text.toList = m.masses.flatMap fun e => row e ++ ['\n']) ∧
    (∀ e ∈ m.masses, '\n' ∉ row e) ∧
    m.text.toList.splitOn '\n' = m.masses.map row ++ [[]] ∧
    m.text.toList.count '\n' = m.size ∧
    ∀ u v : Value, u.floats = [] → v.floats = [] → u.text = v.text → u = v := by
  refine ⟨m.toList_text, fun e _ => newline_not_mem_row e, ?_, ?_, fun u v => Value.text_inj⟩
  · rw [toList_text, splitOn_rows]
  · rw [toList_text, count_rows, masses, List.length_map, size]

end Posterior
