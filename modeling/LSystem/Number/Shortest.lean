import LSystem.Number.Binary64

/-!
# The shortest decimal of a double

Among the decimals `d * 10^k` that round to a given double, the shortest is
the one with the greatest `k`, and of two with that `k` the nearer.  The
decimals that round to `m * 2^p` quanta fill the interval between the
midpoints to its two neighbours, ends included exactly when `m` is even.

On the grid of multiples of `10^k` only the two neighbours of the double can
lie in that interval before any other does, so `shortest` walks down the grids
from one that is too coarse and takes the first on which a neighbour fits.
All comparisons are between whole numbers: the quarter quantum measures the
midpoints, and a negative `k` multiplies the double instead of dividing the
grid.
-/

namespace LSystem.Number

open scoped CorePower

/-- Which way a decimal exactly halfway between two candidates goes. -/
inductive Tie where
  /-- To the greater candidate. -/
  | up
  /-- To the candidate with an even last digit. -/
  | even
  deriving DecidableEq, Repr

/-- A decimal `digits * 10^exponent`. -/
structure Decimal where
  digits : Nat
  exponent : Int
  deriving DecidableEq, Repr

/-- The decimals that round to one double, in quarter quanta. -/
structure RoundingInterval where
  low : Nat
  value : Nat
  high : Nat
  /-- Whether the two ends belong to the interval. -/
  closed : Bool
  deriving DecidableEq, Repr

/-- The interval of the double `m * 2^p`.  Below a power of two the
neighbours are twice as close. -/
def roundingInterval (m p : Nat) : RoundingInterval :=
  let value := 4 * m * 2 ^ p
  let below := if m = 2 ^ (52 : Nat) ∧ 0 < p then 2 ^ p else 2 * 2 ^ p
  ⟨value - below, value, value + 2 * 2 ^ p, m % 2 = 0⟩

/-- What the quarter quanta of a double are multiplied by on a grid. -/
def gridFactor (k : Int) : Nat := 10 ^ (-k).toNat

/-- The step of a grid, in quarter quanta times `gridFactor`. -/
def gridStep (k : Int) : Nat := 4 * quantaPerUnit * 10 ^ k.toNat

/-- Whether `d * 10^k` rounds to the double of the interval. -/
def RoundingInterval.holds (i : RoundingInterval) (k : Int) (d : Nat) : Bool :=
  let point := d * gridStep k
  if i.closed then i.low * gridFactor k ≤ point && point ≤ i.high * gridFactor k
  else i.low * gridFactor k < point && point < i.high * gridFactor k

/-- The neighbour of the double on a grid that rounds to it, the nearer one
when both do. -/
def RoundingInterval.onGrid (i : RoundingInterval) (tie : Tie) (k : Int) : Option Nat :=
  let scaled := i.value * gridFactor k
  let d := scaled / gridStep k
  match i.holds k d, i.holds k (d + 1) with
  | true, false => some d
  | false, true => some (d + 1)
  | false, false => none
  | true, true =>
    let twice := 2 * (scaled % gridStep k)
    if twice < gridStep k then some d
    else if gridStep k < twice then some (d + 1)
    else match tie with
      | .up => some (d + 1)
      | .even => some (d + d % 2)

/-- The first of some grids, each ten times finer than the one before, on
which a neighbour rounds to the double.  Should none do, all digits of the
double itself are given. -/
def RoundingInterval.search (i : RoundingInterval) (tie : Tie) : Nat → Int → Decimal
  | 0, _ => ⟨i.value * 5 ^ (1076 : Nat), -1076⟩
  | grids + 1, k =>
    match i.onGrid tie k with
    | some d => ⟨d, k⟩
    | none => i.search tie grids (k - 1)

/-- A grid coarser than the leading digit of the double with the given
quarter quanta: the decimal logarithm of two is below `30103 / 100000`. -/
def coarseGrid (value : Nat) : Int :=
  Int.fdiv (((Nat.log2 value : Int) - 1075) * 30103) 100000 + 1

/-- The shortest decimal that rounds to the double `m * 2^p`, for `0 < m`. -/
def shortest (tie : Tie) (m p : Nat) : Decimal :=
  let interval := roundingInterval m p
  interval.search tie 24 (coarseGrid interval.value)

end LSystem.Number
