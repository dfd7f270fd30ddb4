import Posterior.Text.Shown

/-!
# Quoted texts

A text is shown between double quotes. Quotes and backslashes are preceded by a backslash, NUL, tab,
line feed and carriage return have a letter of their own, and every other character without a
visible form is written by its code point.

## Main definitions

* `Text.escape` — the written form of one character
* `Text.quoted` — the written form of a text
-/

namespace Posterior.Text

/-- The digits of a number in base sixteen, in lower case and without padding. -/
def hex (n : Nat) : List Char := Nat.toDigits 16 n

/-- The written form of one character inside quotes. -/
def escape (c : Char) : List Char :=
  if c = '\x00' then ['\\', '0']
  else if c = '\t' then ['\\', 't']
  else if c = '\r' then ['\\', 'r']
  else if c = '\n' then ['\\', 'n']
  else if c = '"' then ['\\', '"']
  else if c = '\\' then ['\\', '\\']
  else if isShown c then [c]
  else ['\\', 'u', '\x7b'] ++ hex c.toNat ++ ['\x7d']

/-- The written form of a text: its escaped characters between double quotes. -/
def quoted (s : String) : String :=
  String.ofList ('"' :: s.toList.flatMap escape ++ ['"'])

example : quoted "a\"b\n" = "\"a\\\"b\\n\"" := by decide +kernel

example : quoted "\x7f" = "\"\\u\x7b7f\x7d\"" := by decide +kernel

end Posterior.Text
