import Posterior.Random.ChaCha
import Posterior.Scalar

/-!
# Random sources

A source is an endless sequence of 32-bit words with a reading position. A 64-bit word is two of
them, the low half first. Scalars in the unit interval and integers below a bound are made from
64-bit words.

## Main definitions

* `Source` — an endless sequence of words and the position in it
* `Source.next32`, `Source.next64` — the next word
* `Source.unit` — a scalar in the unit interval
* `Source.below` — an integer below a bound
* `Source.ofWords`, `Source.ofSeed` — a source from given words, and from a seed
-/

namespace Posterior

/-- An endless sequence of 32-bit words with a reading position. -/
structure Source where
  /-- The words. -/
  word : Nat → UInt32
  /-- How many of them have been taken. -/
  taken : Nat

namespace Source

/-- The next 32-bit word. -/
def next32 (s : Source) : UInt32 × Source :=
  (s.word s.taken, { s with taken := s.taken + 1 })

/-- The next 64-bit word, its low half first. -/
def next64 (s : Source) : UInt64 × Source :=
  let low := s.word s.taken
  let high := s.word (s.taken + 1)
  (low.toUInt64 ||| (high.toUInt64 <<< 32), { s with taken := s.taken + 2 })

/-- How many 64-bit words have been taken from a source that gives no others. -/
def used (s : Source) : Nat := s.taken / 2

/-- The given 64-bit words, then zeros. -/
def ofWords (words : Array UInt64) : Source where
  word n :=
    let w := words.getD (n / 2) 0
    if n % 2 = 0 then w.toUInt32 else (w >>> 32).toUInt32
  taken := 0

/-- The stream that a seed stands for. -/
def ofSeed (seed : UInt64) : Source :=
  let key := ChaCha.keyOfSeed seed
  { word := ChaCha.word key, taken := 0 }

example : (ofSeed 0).next64.1 = 13486662071293341567 := by decide +kernel

/-- How many scalars a source tells apart in the unit interval: two to the power of 53. -/
def unitSteps : Nat := 0x20000000000000

/-- A multiple of `1 / unitSteps` in the unit interval, one excluded: the high 53 bits of a word. -/
def unit {X : Type} [Scalar X] (s : Source) : X × Source :=
  let (w, s) := s.next64
  (Scalar.ofNat (w.toNat / 2048) / Scalar.ofNat unitSteps, s)

/-- The largest low half of a product that keeps integers below `n` equally likely: the multiple of
`n` by a power of two that has 64 bits, less one. -/
def zone (n : Nat) : Nat := n <<< (63 - n.log2) - 1

/-- An integer below `n`, with a bound on the number of words rejected: the high half of the product
of a word with `n`, for the first word whose low half is in the zone. After that many rejections the
next word is taken as it is. -/
def belowWithin : Nat → Source → Nat → Nat × Source
  | 0, s, n =>
    let (w, s) := s.next64
    (w.toNat * n / UInt64.size, s)
  | tries + 1, s, n =>
    let (w, t) := s.next64
    -- The low half tells whether the word is one of those in excess.
    let product := w.toNat * n
    if product % UInt64.size ≤ zone n then (product / UInt64.size, t) else belowWithin tries t n

/-- A word is rejected with a chance below one half, so this many in a row are never seen. -/
def tries : Nat := 0x100000

/-- An integer below `n`. -/
def below (s : Source) (n : Nat) : Nat × Source := belowWithin tries s n

/-- What is drawn below a positive bound is below it. -/
theorem belowWithin_lt (tries : Nat) (s : Source) {n : Nat} (pos : 0 < n) :
    (belowWithin tries s n).1 < n := by
  have small (w : UInt64) : w.toNat * n / UInt64.size < n := by
    apply Nat.div_lt_of_lt_mul
    exact Nat.mul_lt_mul_of_pos_right w.toNat_lt pos
  induction tries generalizing s with
  | zero => exact small _
  | succ tries ih =>
    simp only [belowWithin]
    split
    · exact small _
    · exact ih _

/-- What is drawn below a positive bound is below it. -/
theorem below_lt (s : Source) {n : Nat} (pos : 0 < n) : (s.below n).1 < n :=
  belowWithin_lt tries s pos

end Source

end Posterior
