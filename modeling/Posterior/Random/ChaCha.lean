/-!
# The ChaCha stream with twelve rounds

A block is sixteen 32-bit words computed from a key of eight words and a block counter; the stream
is the blocks one after another. A 64-bit seed is expanded to a key by a congruential generator
with permuted output.

## Main definitions

* `ChaCha.block` — one block of the stream
* `ChaCha.word` — one word of the stream
* `ChaCha.keyOfSeed` — the key that a seed stands for
-/

namespace Posterior.ChaCha

/-- Rotates a word to the left by fewer than 32 places. -/
def rotateLeft (x k : UInt32) : UInt32 :=
  if k = 0 then x else (x <<< k) ||| (x >>> (32 - k))

/-- Adds the word at `src` to the word at `dst`, then mixes the sum into the word at `mix` and
rotates that one. -/
def addMix (s : Array UInt32) (dst src mix : Nat) (k : UInt32) : Array UInt32 :=
  let sum := s.getD dst 0 + s.getD src 0
  (s.setIfInBounds dst sum).setIfInBounds mix (rotateLeft (s.getD mix 0 ^^^ sum) k)

/-- The quarter round on four words of the state. -/
def quarterRound (s : Array UInt32) (a b c d : Nat) : Array UInt32 :=
  let s := addMix s a b d 16
  let s := addMix s c d b 12
  let s := addMix s a b d 8
  addMix s c d b 7

/-- Four quarter rounds on the columns of the state, then four on its diagonals. -/
def doubleRound (s : Array UInt32) : Array UInt32 :=
  let s := quarterRound s 0 4 8 12
  let s := quarterRound s 1 5 9 13
  let s := quarterRound s 2 6 10 14
  let s := quarterRound s 3 7 11 15
  let s := quarterRound s 0 5 10 15
  let s := quarterRound s 1 6 11 12
  let s := quarterRound s 2 7 8 13
  quarterRound s 3 4 9 14

/-- That many double rounds. -/
def doubleRounds : Nat → Array UInt32 → Array UInt32
  | 0, s => s
  | n + 1, s => doubleRounds n (doubleRound s)

/-- The four words every state starts with. -/
def constants : Array UInt32 := #[0x61707865, 0x3320646e, 0x79622d32, 0x6b206574]

/-- The state before the rounds: constants, key, a 64-bit block counter and an empty nonce. -/
def initial (key : Array UInt32) (counter : Nat) : Array UInt32 :=
  constants ++ key ++ #[UInt32.ofNat counter, UInt32.ofNat (counter / UInt32.size), 0, 0]

/-- One block of the stream: six double rounds, added to the state they started from. -/
def block (key : Array UInt32) (counter : Nat) : Array UInt32 :=
  let start := initial key counter
  Array.zipWith (· + ·) (doubleRounds 6 start) start

/-- One word of the stream. -/
def word (key : Array UInt32) (n : Nat) : UInt32 :=
  (block key (n / 16)).getD (n % 16) 0

/-- One step of the generator that expands seeds. -/
def advance (state : UInt64) : UInt64 :=
  state * 6364136223846793005 + 11634580027462260723

/-- The output for a state of that generator: its high bits, rotated to the right by an amount that
the highest five of them give. -/
def permuted (state : UInt64) : UInt32 :=
  let x := (((state >>> 18) ^^^ state) >>> 27).toUInt32
  rotateLeft x (((32 : UInt32) - (state >>> 59).toUInt32) % 32)

/-- The outputs for that many states after the given one. -/
def outputs : Nat → UInt64 → List UInt32
  | 0, _ => []
  | n + 1, state => permuted (advance state) :: outputs n (advance state)

/-- The key of eight words that a seed stands for. -/
def keyOfSeed (seed : UInt64) : Array UInt32 := (outputs 8 seed).toArray

end Posterior.ChaCha
