/-!
# The noise generator: the ChaCha stream cipher with eight rounds, keyed from a 64-bit seed

The key stream is read as 64-bit words, and each word gives one number between minus one and one.
-/

namespace PatternSynth

/-- A generator in some state. -/
structure Noise where
  /-- The eight words of the key. -/
  key : Vector UInt32 8
  /-- The number of the next block of the key stream. -/
  block : UInt64
  /-- What is left of the present block. -/
  pending : List UInt64
deriving DecidableEq

namespace Noise

/-- The sixteen words that a block is computed on. -/
abbrev Words := Vector UInt32 16

/-- Rotate a word to the left. -/
def rotateLeft (x : UInt32) (n : UInt32) : UInt32 :=
  (x <<< n) ||| (x >>> (32 - n))

/-- Rotate a word to the right. -/
def rotateRight (x : UInt32) (n : UInt32) : UInt32 :=
  (x >>> n) ||| (x <<< (32 - n))

/-- Add the word at `b` to the word at `a`, and mix the sum into the word at `d`. -/
def mix (w : Words) (a b d : Fin 16) (n : UInt32) : Words :=
  let sum := w.get a + w.get b
  (w.set a sum).set d (rotateLeft (w.get d ^^^ sum) n)

/-- The quarter round of the cipher. -/
def quarterRound (w : Words) (a b c d : Fin 16) : Words :=
  let w := mix w a b d 16
  let w := mix w c d b 12
  let w := mix w a b d 8
  mix w c d b 7

/-- One round on the columns and one on the diagonals. -/
def doubleRound (w : Words) : Words :=
  let w := quarterRound w 0 4 8 12
  let w := quarterRound w 1 5 9 13
  let w := quarterRound w 2 6 10 14
  let w := quarterRound w 3 7 11 15
  let w := quarterRound w 0 5 10 15
  let w := quarterRound w 1 6 11 12
  let w := quarterRound w 2 7 8 13
  quarterRound w 3 4 9 14

/-- The words of a block before the rounds: constants, key, block number and zeros. -/
def blockInput (key : Vector UInt32 8) (block : UInt64) : Words :=
  let constants : Vector UInt32 4 := #v[0x61707865, 0x3320646e, 0x79622d32, 0x6b206574]
  let counter : Vector UInt32 4 := #v[block.toUInt32, (block >>> 32).toUInt32, 0, 0]
  constants ++ key ++ counter

/-- A block of the key stream. -/
def blockWords (key : Vector UInt32 8) (block : UInt64) : Words :=
  let input := blockInput key block
  let mixed := doubleRound (doubleRound (doubleRound (doubleRound input)))
  mixed.zipWith (· + ·) input

/-- Read 32-bit words in pairs, the low half first. -/
def pairs : List UInt32 → List UInt64
  | low :: high :: rest => (low.toUInt64 ||| (high.toUInt64 <<< 32)) :: pairs rest
  | _ => []

/-- The next state of the sequence that the key is drawn from. -/
def keyState (state : UInt64) : UInt64 :=
  state * 6364136223846793005 + 11634580027462260723

/-- The key word drawn at a state. -/
def keyWord (state : UInt64) : UInt32 :=
  rotateRight (((state >>> 18) ^^^ state) >>> 27).toUInt32 (state >>> 59).toUInt32

/-- The generator of a seed. -/
def ofSeed (seed : UInt64) : Noise :=
  let states := Vector.ofFn fun i : Fin 8 => (i.val + 1).repeat keyState seed
  ⟨states.map keyWord, 0, []⟩

/-- The next 64-bit word of the key stream. -/
def nextWord (g : Noise) : UInt64 × Noise :=
  match g.pending with
  | x :: rest => (x, { g with pending := rest })
  | [] =>
    match pairs (blockWords g.key g.block).toList with
    | x :: rest => (x, { g with block := g.block + 1, pending := rest })
    | [] => (0, g)

/-- A fraction of one from the high bits of a word. -/
def fraction (x : UInt64) : Float :=
  Float.ofBits ((0x3ff0000000000000 : UInt64) ||| (x >>> 12)) - 1

/-- What takes the largest fraction to two: `2 / (1 - 2 ^ -52)`. -/
def width : Float := 2 / (1 - Float.ofBits 0x3cb0000000000000)

/-- The next number between minus one and one. -/
def next (g : Noise) : Float × Noise :=
  let (x, g) := g.nextWord
  (fraction x * width + -1, g)

end Noise

end PatternSynth
