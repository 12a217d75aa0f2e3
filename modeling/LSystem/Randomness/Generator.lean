import LSystem.Randomness.ChaCha

/-!
# The random generator

A generator is a key, the number of blocks of the key that were taken, and what
is left of the last of them.  The draws are the pairs of words in the row of
all blocks, so a draw depends on the key and its place alone, and a copy of a
generator repeats what the generator itself goes on to draw.

A key comes from a seed of one machine word, which a linear congruence
stretches to eight words.
-/

namespace LSystem.Randomness

/-- A key and how far its blocks are used up. -/
structure Generator where
  low : Quad
  high : Quad
  /-- The number of blocks taken. -/
  blocks : Nat
  /-- The draws that are left of the last block. -/
  rest : List UInt64
  deriving DecidableEq, Repr

/-- One step of the congruence that stretches a seed. -/
def advanceSeed (s : UInt64) : UInt64 := s * 6364136223846793005 + 11634580027462260723

/-- The word read off a state of the congruence: its bits folded together and
turned by the topmost five of them. -/
def wordOfSeed (s : UInt64) : UInt32 :=
  let folded := (((s >>> 18) ^^^ s) >>> 27).toUInt32
  let turn := (s >>> 59).toUInt32
  (folded >>> turn) ||| (folded <<< ((32 - turn) % 32))

/-- Four words read off four successive states, and the last of the states. -/
def quadOfSeed (s : UInt64) : Quad × UInt64 :=
  let s₁ := advanceSeed s
  let s₂ := advanceSeed s₁
  let s₃ := advanceSeed s₂
  let s₄ := advanceSeed s₃
  (⟨wordOfSeed s₁, wordOfSeed s₂, wordOfSeed s₃, wordOfSeed s₄⟩, s₄)

/-- The generator of a seed, before its first draw. -/
def Generator.ofSeed (seed : UInt64) : Generator :=
  let (low, s) := quadOfSeed seed
  let (high, _) := quadOfSeed s
  ⟨low, high, 0, []⟩

/-- The upper 53 bits of a pair of words. -/
def bitsOfPair (pair : UInt32 × UInt32) : UInt64 :=
  ((pair.2.toUInt64 <<< 32) ||| pair.1.toUInt64) >>> 11

/-- The draws of the next block. -/
def Generator.block (g : Generator) : List UInt64 :=
  (ChaCha.pairs (ChaCha.output g.low g.high (UInt64.ofNat g.blocks))).map bitsOfPair

/-- The bits of the next draw and the generator after it. -/
def Generator.nextBits (g : Generator) : UInt64 × Generator :=
  match g.rest with
  | bits :: rest => (bits, { g with rest })
  | [] =>
    match g.block with
    | bits :: rest => (bits, { g with blocks := g.blocks + 1, rest })
    | [] => (0, g)

/-- The multiple of `2^-53` that 53 bits count, from zero to below one. -/
def unitOfBits (bits : UInt64) : Float := bits.toFloat / 9007199254740992

/-- The next draw and the generator after it. -/
def Generator.next (g : Generator) : Float × Generator :=
  let (bits, g) := g.nextBits
  (unitOfBits bits, g)

end LSystem.Randomness
