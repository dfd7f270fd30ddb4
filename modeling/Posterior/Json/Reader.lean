import Posterior.Json.Basic

/-!
# Reading JSON

A reader takes what it can use from the front of a list of characters and gives back the rest.
Blanks are spaces, tabs, line feeds and carriage returns. Numbers have no leading zeros, strings
no bare control characters, and nothing but blanks may follow the text.

## Main definitions

* `Json.readNumeral`, `Json.readString`, `Json.readValue` — readers
* `Json.parse?` — the tree of a whole text
-/

namespace Posterior.Json

/-- The characters that may stand between tokens. -/
def isBlank (c : Char) : Bool := c == ' ' || c == '\t' || c == '\n' || c == '\r'

/-- What follows leading blanks. -/
def skipBlanks (cs : List Char) : List Char := cs.dropWhile isBlank

/-- Leading digits, of which there has to be one, and the rest. -/
def readDigits (cs : List Char) : Option (List Char × List Char) :=
  match cs.takeWhile Char.isDigit with
  | [] => none
  | d :: ds => some (d :: ds, cs.dropWhile Char.isDigit)

/-- Digits without a leading zero, but for zero itself. -/
def readWhole (cs : List Char) : Option (List Char × List Char) :=
  match readDigits cs with
  | some ('0' :: _ :: _, _) => none
  | other => other

/-- The digits after a point, if there is one. -/
def readFraction : List Char → Option (Option (List Char) × List Char)
  | '.' :: cs => (readDigits cs).map fun (ds, rest) => (some ds, rest)
  | cs => some (none, cs)

/-- Digits with an optional sign before them, as an integer. -/
def readSigned : List Char → Option (Int × List Char)
  | '-' :: cs => (readDigits cs).map fun (ds, rest) => (-(Decimal.digitsValue ds : Int), rest)
  | '+' :: cs => (readDigits cs).map fun (ds, rest) => ((Decimal.digitsValue ds : Int), rest)
  | cs => (readDigits cs).map fun (ds, rest) => ((Decimal.digitsValue ds : Int), rest)

/-- The exponent, if there is one. -/
def readExponent : List Char → Option (Option Int × List Char)
  | 'e' :: cs => (readSigned cs).map fun (e, rest) => (some e, rest)
  | 'E' :: cs => (readSigned cs).map fun (e, rest) => (some e, rest)
  | cs => some (none, cs)

/-- A number without its sign. -/
def readMagnitude (negative : Bool) (cs : List Char) : Option (Numeral × List Char) := do
  let (ds, cs) ← readWhole cs
  let (fraction, cs) ← readFraction cs
  let (exponent, cs) ← readExponent cs
  return (⟨negative, ds, fraction, exponent⟩, cs)

/-- A number. -/
def readNumeral : List Char → Option (Numeral × List Char)
  | '-' :: cs => readMagnitude true cs
  | cs => readMagnitude false cs

/-! ### Strings -/

/-- A piece of a string: a character, or a 16-bit unit given by its number. -/
inductive Piece where
  /-- A character. -/
  | char (c : Char)
  /-- A unit. -/
  | unit (n : Nat)
  deriving DecidableEq, Repr

/-- The value of a digit in base sixteen. -/
def hexValue? (c : Char) : Option Nat :=
  if c.isDigit then some (c.toNat - '0'.toNat)
  else if 'a' ≤ c ∧ c ≤ 'f' then some (c.toNat - 'a'.toNat + 10)
  else if 'A' ≤ c ∧ c ≤ 'F' then some (c.toNat - 'A'.toNat + 10)
  else none

/-- The number that four digits in base sixteen stand for. -/
def unitValue? (a b c d : Char) : Option Nat := do
  let a ← hexValue? a
  let b ← hexValue? b
  let c ← hexValue? c
  let d ← hexValue? d
  return ((a * 16 + b) * 16 + c) * 16 + d

/-- What a letter after a backslash stands for. -/
def escaped? : Char → Option Char
  | '"' => some '"'
  | '\\' => some '\\'
  | '/' => some '/'
  | 'b' => some '\x08'
  | 'f' => some '\x0c'
  | 'n' => some '\n'
  | 'r' => some '\r'
  | 't' => some '\t'
  | _ => none

/-- The pieces of a string up to its closing quote, and what follows that. -/
def readPieces : List Char → Option (List Piece × List Char)
  | [] => none
  | '"' :: rest => some ([], rest)
  | '\\' :: 'u' :: a :: b :: c :: d :: rest => do
    let n ← unitValue? a b c d
    let (ps, rest) ← readPieces rest
    return (.unit n :: ps, rest)
  | '\\' :: c :: rest => do
    let c ← escaped? c
    let (ps, rest) ← readPieces rest
    return (.char c :: ps, rest)
  | c :: rest =>
    if c.toNat < 0x20 || c == '\\' then none
    else do
      let (ps, rest) ← readPieces rest
      return (.char c :: ps, rest)

/-- The text that pieces make up, if each unit that is half of a pair has its other half. -/
def joinPieces : List Piece → Option (List Char)
  | [] => some []
  | .char c :: ps => (joinPieces ps).map (c :: ·)
  | .unit n :: .unit m :: ps =>
    -- The first half of a pair has to be followed by the second.
    if 0xd800 ≤ n ∧ n < 0xdc00 then
      if 0xdc00 ≤ m ∧ m < 0xe000 then
        (joinPieces ps).map (Char.ofNat (0x10000 + (n - 0xd800) * 0x400 + (m - 0xdc00)) :: ·)
      else none
    else if 0xdc00 ≤ n ∧ n < 0xe000 then none
    else (joinPieces (.unit m :: ps)).map (Char.ofNat n :: ·)
  | .unit n :: ps =>
    if 0xd800 ≤ n ∧ n < 0xe000 then none
    else (joinPieces ps).map (Char.ofNat n :: ·)

/-- A string after its opening quote. -/
def readString (cs : List Char) : Option (Option String × List Char) :=
  (readPieces cs).map fun (ps, rest) => ((joinPieces ps).map String.ofList, rest)

/-! ### Values -/

mutual

/-- A value, nested no deeper than the fuel allows. -/
def readValue : Nat → List Char → Option (Json × List Char)
  | 0, _ => none
  | fuel + 1, cs =>
    match skipBlanks cs with
    | 'n' :: 'u' :: 'l' :: 'l' :: rest => some (.null, rest)
    | 't' :: 'r' :: 'u' :: 'e' :: rest => some (.bool true, rest)
    | 'f' :: 'a' :: 'l' :: 's' :: 'e' :: rest => some (.bool false, rest)
    | '"' :: rest => (readString rest).map fun (s, rest) => (.string s, rest)
    | '[' :: rest =>
      match skipBlanks rest with
      | ']' :: rest => some (.array [], rest)
      | rest => (readItems fuel rest).map fun (js, rest) => (.array js, rest)
    | '\x7b' :: rest =>
      match skipBlanks rest with
      | '\x7d' :: rest => some (.object [], rest)
      | rest => (readFields fuel rest).map fun (fs, rest) => (.object fs, rest)
    | rest => (readNumeral rest).map fun (n, rest) => (.number n, rest)

/-- The items of an array that has any, and its closing bracket. -/
def readItems : Nat → List Char → Option (List Json × List Char)
  | 0, _ => none
  | fuel + 1, cs =>
    match readValue fuel cs with
    | none => none
    | some (j, rest) =>
      match skipBlanks rest with
      | ',' :: rest => (readItems fuel rest).map fun (js, rest) => (j :: js, rest)
      | ']' :: rest => some ([j], rest)
      | _ => none

/-- The fields of an object that has any, and its closing brace. -/
def readFields : Nat → List Char → Option (List (Option String × Json) × List Char)
  | 0, _ => none
  | fuel + 1, cs =>
    match skipBlanks cs with
    | '"' :: rest =>
      match readString rest with
      | none => none
      | some (name, rest) =>
        match skipBlanks rest with
        | ':' :: rest =>
          match readValue fuel rest with
          | none => none
          | some (j, rest) =>
            match skipBlanks rest with
            | ',' :: rest => (readFields fuel rest).map fun (fs, rest) => ((name, j) :: fs, rest)
            | '\x7d' :: rest => some ([(name, j)], rest)
            | _ => none
        | _ => none
    | _ => none

end

/-- The tree of a whole text. Every nested value takes a character of its own, so the fuel
suffices. -/
def parse? (s : String) : Option Json :=
  let cs := s.toList
  match readValue (2 * cs.length + 1) cs with
  | some (j, rest) => if (skipBlanks rest).isEmpty then some j else none
  | none => none

end Posterior.Json
