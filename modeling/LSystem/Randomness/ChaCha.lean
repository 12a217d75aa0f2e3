/-!
# ChaCha blocks

A block is a square of sixteen words, kept here by its four columns.  A
quarter round mixes the four words of one column; a double round mixes the
columns and then the diagonals.  Turning every row a place further than the
row above it makes columns of the diagonals, so that one function on columns
serves both halves.

`ChaCha.output` is the block of a key and a counter after twelve rounds.
-/

namespace LSystem.Randomness

/-- Four words. -/
structure Quad where
  a : UInt32
  b : UInt32
  c : UInt32
  d : UInt32
  deriving DecidableEq, Repr

/-- Sixteen words by columns. -/
structure Square where
  first : Quad
  second : Quad
  third : Quad
  fourth : Quad
  deriving DecidableEq, Repr

namespace ChaCha

/-- A word with its bits moved `n` places up and around, for `0 < n < 32`. -/
def rotateLeft (x n : UInt32) : UInt32 := (x <<< n) ||| (x >>> (32 - n))

/-- One quarter round. -/
def quarterRound (q : Quad) : Quad :=
  let a := q.a + q.b
  let d := rotateLeft (q.d ^^^ a) 16
  let c := q.c + d
  let b := rotateLeft (q.b ^^^ c) 12
  let a := a + b
  let d := rotateLeft (d ^^^ a) 8
  let c := c + d
  let b := rotateLeft (b ^^^ c) 7
  ⟨a, b, c, d⟩

/-- A quarter round on every column. -/
def mixColumns (s : Square) : Square :=
  ⟨quarterRound s.first, quarterRound s.second, quarterRound s.third, quarterRound s.fourth⟩

/-- The square whose columns are the diagonals of another. -/
def diagonals (s : Square) : Square :=
  ⟨⟨s.first.a, s.second.b, s.third.c, s.fourth.d⟩,
   ⟨s.second.a, s.third.b, s.fourth.c, s.first.d⟩,
   ⟨s.third.a, s.fourth.b, s.first.c, s.second.d⟩,
   ⟨s.fourth.a, s.first.b, s.second.c, s.third.d⟩⟩

/-- The square with the given diagonals. -/
def ofDiagonals (s : Square) : Square :=
  ⟨⟨s.first.a, s.fourth.b, s.third.c, s.second.d⟩,
   ⟨s.second.a, s.first.b, s.fourth.c, s.third.d⟩,
   ⟨s.third.a, s.second.b, s.first.c, s.fourth.d⟩,
   ⟨s.fourth.a, s.third.b, s.second.c, s.first.d⟩⟩

/-- A round on the columns and a round on the diagonals. -/
def doubleRound (s : Square) : Square := ofDiagonals (mixColumns (diagonals (mixColumns s)))

/-- A number of double rounds. -/
def doubleRounds : Nat → Square → Square
  | 0, s => s
  | rounds + 1, s => doubleRounds rounds (doubleRound s)

/-- The sum of two columns word by word. -/
def addQuad (p q : Quad) : Quad := ⟨p.a + q.a, p.b + q.b, p.c + q.c, p.d + q.d⟩

/-- The sum of two squares word by word. -/
def addSquare (s t : Square) : Square :=
  ⟨addQuad s.first t.first, addQuad s.second t.second, addQuad s.third t.third,
   addQuad s.fourth t.fourth⟩

/-- The square of a key and a counter: its rows are four constant words that
spell `expand 32-byte k`, the two halves of the key, and the counter. -/
def input (low high : Quad) (counter : UInt64) : Square :=
  ⟨⟨0x61707865, low.a, high.a, counter.toUInt32⟩,
   ⟨0x3320646e, low.b, high.b, (counter >>> 32).toUInt32⟩,
   ⟨0x79622d32, low.c, high.c, 0⟩,
   ⟨0x6b206574, low.d, high.d, 0⟩⟩

/-- The block of a key and a counter. -/
def output (low high : Quad) (counter : UInt64) : Square :=
  let start := input low high counter
  addSquare start (doubleRounds 6 start)

/-- The words of a square two by two, row after row. -/
def pairs (s : Square) : List (UInt32 × UInt32) :=
  [(s.first.a, s.second.a), (s.third.a, s.fourth.a),
   (s.first.b, s.second.b), (s.third.b, s.fourth.b),
   (s.first.c, s.second.c), (s.third.c, s.fourth.c),
   (s.first.d, s.second.d), (s.third.d, s.fourth.d)]

end ChaCha

end LSystem.Randomness
